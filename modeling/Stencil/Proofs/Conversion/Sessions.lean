import Stencil.Conversion.Session
import Stencil.Proofs.Conversion.Concatenation
import Stencil.Proofs.Scope.Pool

/-!
# Conversion in place

A converter works on scopes and a tally that others hold too, and it finds
there whatever they left. It is followed here by the conversion that keeps a
log: from every workspace it gives the same result, and it changes the
workspace by what stands in the log. So what it finds plays no part, and a
converter that has been at work behaves like a fresh one.
-/

namespace Stencil.Conversion

open Handlebars (Arguments Expr Path Program Statement)
open Django (Piece Fragment)
open Pool (Context Cell)

/-- The workspace after a conversion in a context, as its log has it. There may be new cells. -/
structure Left (c : Context) (before after : Workspace) (log : Log) : Prop where
  buffer : after.buffer = before.buffer ++ log.fragments
  families : after.pool.families = before.pool.families.modify c.family fun f =>
    { conditionals := f.conditionals + log.conditionals
      diagnostics := f.diagnostics ++ log.diagnostics }
  cells : ∀ (n : Nat) (cell : Cell), before.pool.cells[n]? = some cell →
    ∃ cell', after.pool.cells[n]? = some cell' ∧
      cell.Becomes cell' (∃ depth ∈ log.marks, c.cellAt? depth = some n)

namespace Left

variable {c : Context} {u v w : Workspace} {log more : Log}

theorem refl (c : Context) (w : Workspace) : Left c w w {} where
  buffer := by simp
  families := by
    simp only [Nat.add_zero, List.append_nil]
    exact (List.modify_id c.family w.pool.families).symm
  cells := fun _ cell h => ⟨cell, h, (Cell.Becomes.refl cell).congr (by simp)⟩

theorem trans (huv : Left c u v log) (hvw : Left c v w more) : Left c u w (log ++ more) where
  buffer := by rw [hvw.buffer, huv.buffer, List.append_assoc]; rfl
  families := by
    rw [hvw.families, huv.families, List.modify_modify_eq]
    simp [Log.append_def, Log.append, Function.comp_def, Nat.add_assoc]
  cells := by
    intro n cell hcell
    obtain ⟨middle, hmiddle, hfirst⟩ := huv.cells n cell hcell
    obtain ⟨last, hlast, hthen⟩ := hvw.cells n middle hmiddle
    refine ⟨last, hlast, hfirst.trans hthen ?_⟩
    simp only [Log.append_def, Log.append, List.mem_append, or_and_right, exists_or]

theorem length_le (h : Left c u v log) : u.pool.cells.length ≤ v.pool.cells.length := by
  apply Nat.le_of_not_lt
  intro hlt
  obtain ⟨cell, hcell, -⟩ := h.cells _ _ (List.getElem?_eq_getElem hlt)
  obtain ⟨hinside, -⟩ := List.getElem?_eq_some_iff.mp hcell
  omega

/-- Every context that the workspace held before is still there, in the same scopes. -/
theorem held {d : Context} (h : Left c u v log) (hd : d.Held u.pool) : d.Held v.pool :=
  hd.of_cells h.length_le (by rw [h.families, List.length_modify])

theorem scopes_eq {d : Context} (h : Left c u v log) (hd : d.Held u.pool) :
    v.pool.scopes d = u.pool.scopes d := by
  apply Pool.scopes_eq_of_cells hd (h.held hd)
  intro n cell hcell
  obtain ⟨cell', hcell', hbecomes⟩ := h.cells n cell hcell
  exact ⟨cell', hcell', hbecomes.scope⟩

theorem leave (w : Workspace) (place : Place) (log : Log) :
    Left place.context w (w.leave place log) log where
  buffer := rfl
  families := by
    simp only [Workspace.leave, Pool.updateFamily, Pool.families_markAll]
  cells := fun _ _ h => Pool.cells_markAll log.marks h

/-- What a converter inside a new scope leaves, seen from the context around it. -/
theorem closeScope {scope : Scope} {keyed : Bool}
    (h : Left (w.pool.nextBelow c)
      { w with pool := w.pool.openBelow c scope keyed, buffer := [] } v log) :
    Left c w { v with buffer := w.buffer }
      { log with fragments := [], marks := log.marks.filter (· ≤ c.depth) } where
  buffer := by simp
  families := by
    have hfamilies : (w.pool.openBelow c scope keyed).families = w.pool.families := by
      cases keyed <;> rfl
    rw [h.families, hfamilies]
    rfl
  cells := by
    intro n cell hcell
    obtain ⟨hlt, -⟩ := List.getElem?_eq_some_iff.mp hcell
    obtain ⟨cell', hcell', hbecomes⟩ := h.cells n cell (Pool.cells_openBelow_of_lt hcell)
    refine ⟨cell', hcell', hbecomes.congr ?_⟩
    simp only [Pool.cellAt?_nextBelow_of_lt hlt, List.mem_filter, decide_eq_true_eq, and_assoc]

/-- The new scope is marked in the end if it was from the start or the log marks it. -/
theorem isMarked_nextBelow {scope : Scope} {keyed : Bool} (hc : c.Held w.pool)
    (h : Left (w.pool.nextBelow c)
      { w with pool := w.pool.openBelow c scope keyed, buffer := [] } v log) :
    v.pool.isMarked (w.pool.nextBelow c) = (keyed || log.marks.contains (c.depth + 1)) := by
  obtain ⟨cell, hcell, hbecomes⟩ := h.cells _ _ Pool.cells_openBelow_length
  have hnumber : (w.pool.nextBelow c).cellAt? (w.pool.nextBelow c).depth =
      some w.pool.cells.length := (Pool.cellAt?_nextBelow_length hc).mpr rfl
  simp only [Pool.isMarked, Pool.cell?, hnumber, Option.bind_some, hcell, Option.any_some]
  rw [Bool.eq_iff_iff, decide_eq_true_eq, hbecomes.style]
  simp only [Pool.cellAt?_nextBelow_length hc, exists_eq_right, Bool.or_eq_true,
    List.contains_iff_mem]
  cases keyed <;> simp

end Left

theorem Workspace.leave_leave (w : Workspace) (place : Place) (log more : Log) :
    (w.leave place log).leave place more = w.leave place (log ++ more) := by
  simp only [leave, Log.append_def, Log.append, Pool.markAll_append, Pool.markAll_updateFamily,
    Pool.updateFamily_updateFamily, List.append_assoc, List.map_append, Function.comp_def,
    Nat.add_assoc]

theorem Workspace.leave_marks (w : Workspace) (place : Place) (marks : List Nat) :
    w.leave place { marks } = { w with pool := w.pool.markAll place.context marks } := by
  simp only [leave, Nat.add_zero, List.append_nil, List.map_nil]
  exact congrArg (fun p => { w with pool := p }) (Pool.updateFamily_id _ place.context)

theorem Workspace.scopes_leave (w : Workspace) (place : Place) (log : Log) (c : Context) :
    (w.leave place log).pool.scopes c = w.pool.scopes c :=
  Pool.scopes_markAll w.pool place.context c log.marks

namespace InPlace

variable {α β : Type} (place : Place)

theorem carryOut_pure (a : α) : carryOut place (fun _ => pure a) = pure a := by
  funext w
  exact congrArg (Prod.mk _) (w.leave_marks place [])

/-- Carrying a step out means to do what it does as it comes. -/
theorem carryOut_bind (step : List Scope → Step α) (next : α → List Scope → Step β) :
    carryOut place (fun scopes => step scopes >>= fun a => next a scopes) =
      carryOut place step >>= fun a => carryOut place (next a) := by
  funext w
  change _ = InPlace.bind (carryOut place step) (fun a => carryOut place (next a)) w
  simp only [InPlace.bind, carryOut, Step.bind_def, Step.bind]
  cases (step (w.pool.scopes place.context)).result with
  | error e => rfl
  | ok a => simp only [Workspace.leave_leave, Workspace.scopes_leave]

/-- A reference is resolved in the pool, where it leaves its mark at once. -/
theorem carryOut_resolve (path : Path) (w : Workspace) :
    carryOut place (fun scopes => .resolve scopes path) w =
      (.ok (w.pool.resolve place.context path).1,
        { w with pool := (w.pool.resolve place.context path).2 }) := by
  refine congrArg (Prod.mk _) ?_
  simp only [Step.resolve, Workspace.leave_marks, Pool.resolve]
  cases (Scopes.resolve (w.pool.scopes place.context) path).mark <;> rfl

/-- A diagnostic is shown with the depth, and noted with the family. -/
theorem carryOut_report (d : Diagnostic) (w : Workspace) :
    carryOut place (fun _ => .report d) w =
      (.ok (), { w with
        pool := w.pool.record place.context d
        warnings := w.warnings ++ [(place.depth, d)] }) := by
  simp [carryOut, Step.report, Workspace.leave, Pool.markAll, Pool.record]

end InPlace

/-- From every workspace that holds the context, a conversion in place gives the result of the
step in the scopes it finds there, and leaves its log. -/
def Simulates {α : Type} (c : Context) (x : InPlace α) (step : List Scope → Step α) : Prop :=
  ∀ w : Workspace, c.Held w.pool →
    (x w).1 = (step (w.pool.scopes c)).result ∧
      Left c w (x w).2 (step (w.pool.scopes c)).log

namespace Simulates

variable {α β : Type} {c : Context}

theorem pure (c : Context) (a : α) : Simulates c (Pure.pure a) fun _ => Pure.pure a :=
  fun w _ => ⟨rfl, Left.refl c w⟩

theorem carryOut (place : Place) (step : List Scope → Step α) :
    Simulates place.context (InPlace.carryOut place step) step :=
  fun w _ => ⟨rfl, Left.leave w place _⟩

theorem bind {x : InPlace α} {step : List Scope → Step α} {f : α → InPlace β}
    {next : α → List Scope → Step β} (hx : Simulates c x step)
    (hf : ∀ a, Simulates c (f a) (next a)) :
    Simulates c (x >>= f) fun scopes => step scopes >>= fun a => next a scopes := by
  intro w hw
  obtain ⟨hresult, hleft⟩ := hx w hw
  change (InPlace.bind x f w).1 = (Step.bind _ _).result ∧
    Left c w (InPlace.bind x f w).2 (Step.bind _ _).log
  cases hdone : (step (w.pool.scopes c)).result with
  | error e =>
    have hrun : x w = (.error e, (x w).2) := Prod.ext (hresult.trans hdone) rfl
    rw [InPlace.bind, hrun, Step.bind, hdone]
    exact ⟨rfl, hleft⟩
  | ok a =>
    have hrun : x w = (.ok a, (x w).2) := Prod.ext (hresult.trans hdone) rfl
    obtain ⟨hthen, hmore⟩ := hf a (x w).2 (hleft.held hw)
    rw [hleft.scopes_eq hw] at hthen hmore
    rw [InPlace.bind, hrun, Step.bind, hdone]
    exact ⟨hthen, hleft.trans hmore⟩

/-- The buffer of the converter around is put aside and taken up again. -/
theorem nested {x : InPlace Unit} {step : List Scope → Step Unit} (hx : Simulates c x step) :
    Simulates c (InPlace.nested x) fun scopes => (step scopes).gather := by
  intro w hw
  obtain ⟨hresult, hleft⟩ := hx { w with buffer := [] } hw
  have hbuffer := hleft.buffer
  rw [List.nil_append] at hbuffer
  refine ⟨?_, ?_, hleft.families, hleft.cells⟩
  · simp only [InPlace.nested, Step.gather]
    rw [hresult, hbuffer]
  · simp [InPlace.nested, Step.gather]

/-- The marks on the new scope are read off its cell, and the others go on. -/
theorem nestedWithin {x : Context → InPlace Unit} {step : List Scope → Step Unit} (scope : Scope)
    (keyed : Bool) (hx : ∀ inner, Simulates inner (x inner) step) :
    Simulates c (InPlace.nestedWithin c scope keyed x) fun scopes =>
      (step (scope :: scopes)).gatherWithin scopes.length >>= fun gathered =>
        Pure.pure (gathered.1, keyed || gathered.2) := by
  intro w hw
  obtain ⟨hresult, hleft⟩ := hx (w.pool.nextBelow c)
    { w with pool := w.pool.openBelow c scope keyed, buffer := [] } (hw.openBelow scope keyed)
  simp only [Pool.scopes_openBelow hw scope keyed] at hresult hleft
  have hbuffer := hleft.buffer
  rw [List.nil_append] at hbuffer
  have hmarked := hleft.isMarked_nextBelow hw
  have hclosed := hleft.closeScope
  simp only [InPlace.nestedWithin, InPlace.nested, Step.bind_def, Step.bind, Step.gatherWithin,
    Pool.length_scopes hw, hresult, hbuffer, hmarked]
  cases (step (scope :: w.pool.scopes c)).result with
  | error e => exact ⟨rfl, hclosed⟩
  | ok a =>
    refine ⟨rfl, ?_⟩
    simp only [Except.map, Step.pure_def, Log.append_nil]
    exact hclosed

theorem nestedWithin_bind {x : Context → InPlace Unit} {step : List Scope → Step Unit}
    {f : Fragment × Bool → InPlace β} (g : Fragment × Bool → List Scope → Step β) (scope : Scope)
    (keyed : Bool) (hx : ∀ inner, Simulates inner (x inner) step)
    (hf : ∀ gathered, Simulates c (f gathered) (g gathered)) :
    Simulates c (InPlace.nestedWithin c scope keyed x >>= f) fun scopes =>
      (step (scope :: scopes)).gatherWithin scopes.length >>= fun gathered =>
        g (gathered.1, keyed || gathered.2) scopes := by
  have hbind := (nestedWithin scope keyed hx).bind hf
  simpa only [Step.bind_assoc, Step.pure_bind] using hbind

end Simulates

namespace InPlace

/-- A branch is converted in place as the other branch is converted to a log. -/
structure Branch.Simulates (x : Branch) (b : Conversion.Branch) : Prop where
  loneIf : x.loneIf = b.loneIf
  convert : ∀ (place : Place) (chained : Bool),
    Conversion.Simulates place.context (x.convert place chained) fun scopes =>
      b.convert scopes chained

end InPlace

namespace Simulates

theorem write (place : Place) (f : Fragment) :
    Simulates place.context (InPlace.write place f) fun _ => .write f :=
  carryOut place fun _ => .write f

theorem emit (place : Place) (p : Piece) :
    Simulates place.context (InPlace.emit place p) fun _ => .emit p :=
  carryOut place fun _ => .emit p

section
variable {helper : Path} {args : Arguments} {blockParams : List String} {x : InPlace.Branch}
  {b : Branch} {xs : Option InPlace.Branch} {bs : Option Branch}
variable (hmain : x.Simulates b) (hinverse : Option.Rel InPlace.Branch.Simulates xs bs)
variable (place : Place)

include hinverse in
theorem alternative (mark : Piece) :
    Simulates place.context (InPlace.alternative place mark xs) fun scopes =>
      Conversion.alternative scopes mark bs := by
  cases hinverse with
  | none => exact pure _ ()
  | some hinverse =>
    apply (hinverse.convert place false).nested.bind
    intro body
    exact (emit place mark).bind fun _ => write place body

include hinverse in
theorem chainedAlternative :
    Simulates place.context (InPlace.chainedAlternative place xs) fun scopes =>
      Conversion.chainedAlternative scopes bs := by
  cases hinverse with
  | none => exact pure _ ()
  | @some inverse other hinverse =>
    simp only [InPlace.chainedAlternative, Conversion.chainedAlternative, hinverse.loneIf]
    apply (hinverse.convert place other.loneIf).nested.bind
    intro body
    split
    · exact write place body
    · exact (emit place .elseMark).bind fun _ => write place body

include hmain hinverse

theorem ifBlock (chained : Bool) :
    Simulates place.context (InPlace.ifBlock place chained ⟨helper, args, blockParams, x, xs⟩)
      fun scopes => Conversion.ifBlock scopes chained ⟨helper, args, blockParams, b, bs⟩ := by
  apply (carryOut place fun scopes => condition scopes args.params[0]?).bind
  intro test
  apply (carryOut place fun _ => .count).bind
  intro _
  apply (emit place _).bind
  intro _
  apply (hmain.convert place false).nested.bind
  intro body
  apply (write place body).bind
  intro _
  apply (chainedAlternative hinverse place).bind
  intro _
  split
  · exact pure _ ()
  · exact emit place .endIf

theorem conditionalBranches :
    Simulates place.context (InPlace.conditionalBranches place ⟨helper, args, blockParams, x, xs⟩)
      fun scopes => Conversion.conditionalBranches scopes ⟨helper, args, blockParams, b, bs⟩ := by
  apply (hmain.convert place false).nested.bind
  intro body
  apply (write place body).bind
  intro _
  apply (alternative hinverse place .elseMark).bind
  intro _
  exact emit place .endIf

theorem unlessBlock :
    Simulates place.context (InPlace.unlessBlock place ⟨helper, args, blockParams, x, xs⟩)
      fun scopes => Conversion.unlessBlock scopes ⟨helper, args, blockParams, b, bs⟩ := by
  apply (carryOut place fun scopes => condition scopes args.params[0]?).bind
  intro test
  apply (carryOut place fun _ => .count).bind
  intro _
  apply (emit place _).bind
  intro _
  exact conditionalBranches hmain hinverse place

theorem equalBlock :
    Simulates place.context (InPlace.equalBlock place ⟨helper, args, blockParams, x, xs⟩)
      fun scopes => Conversion.equalBlock scopes ⟨helper, args, blockParams, b, bs⟩ := by
  apply (carryOut place fun scopes => argument? scopes args.params[0]?).bind
  intro left
  apply (carryOut place fun _ => .count).bind
  intro _
  apply (emit place _).bind
  intro _
  exact conditionalBranches hmain hinverse place

theorem keptBlock :
    Simulates place.context (InPlace.keptBlock place ⟨helper, args, blockParams, x, xs⟩)
      fun scopes => Conversion.keptBlock scopes ⟨helper, args, blockParams, b, bs⟩ := by
  apply (emit place _).bind
  intro _
  apply (hmain.convert place false).nested.bind
  intro body
  apply (write place body).bind
  intro _
  apply (alternative hinverse place .keptElse).bind
  intro _
  exact emit place _

theorem lookupBlock (collection key : Expr) (name : String) :
    Simulates place.context
      (InPlace.lookupBlock place ⟨helper, args, blockParams, x, xs⟩ collection key name)
      fun scopes =>
        Conversion.lookupBlock scopes ⟨helper, args, blockParams, b, bs⟩ collection key name := by
  have hdropped : xs.isSome = bs.isSome := by cases hinverse <;> rfl
  simp only [InPlace.lookupBlock, hdropped]
  apply (carryOut place fun scopes => argument scopes collection).bind
  intro collection
  apply (carryOut place fun scopes => argument scopes key).bind
  intro key
  apply (emit place _).bind
  intro _
  apply nestedWithin_bind (fun gathered scopes => do
      Step.write gathered.1
      if bs.isSome then .report (.droppedWithElse name) else Pure.pure ()
      .emit .endWith) { names := [name] } false fun inner =>
        hmain.convert ⟨inner, place.depth⟩ false
  intro gathered
  apply (write place gathered.1).bind
  intro _
  split
  · exact (carryOut place fun _ => .report (.droppedWithElse name)).bind fun _ =>
      emit place .endWith
  · exact emit place .endWith

theorem withBlock :
    Simulates place.context (InPlace.withBlock place ⟨helper, args, blockParams, x, xs⟩)
      fun scopes => Conversion.withBlock scopes ⟨helper, args, blockParams, b, bs⟩ := by
  cases hlookup : lookup? args blockParams with
  | some found =>
    simp only [InPlace.withBlock, Conversion.withBlock, hlookup]
    exact lookupBlock hmain hinverse place _ _ _
  | none =>
    simp only [InPlace.withBlock, Conversion.withBlock, hlookup]
    apply (carryOut place fun _ => .report .otherWith).bind
    intro _
    exact keptBlock hmain hinverse place

theorem eachBlock :
    Simulates place.context (InPlace.eachBlock place ⟨helper, args, blockParams, x, xs⟩)
      fun scopes => Conversion.eachBlock scopes ⟨helper, args, blockParams, b, bs⟩ := by
  apply (carryOut place fun scopes => collection scopes args.params[0]?).bind
  intro items
  apply nestedWithin_bind (fun gathered scopes => do
      Step.emit (loopHeader (loopNames blockParams items) items gathered.2)
      .write gathered.1
      Conversion.alternative scopes .emptyMark bs
      .emit .endFor) { names := loopNames blockParams items } _
    fun inner => hmain.convert ⟨inner, place.depth + 1⟩ false
  intro gathered
  apply (emit place _).bind
  intro _
  apply (write place gathered.1).bind
  intro _
  apply (alternative hinverse place .emptyMark).bind
  intro _
  exact emit place .endFor

theorem block (chained : Bool) :
    Simulates place.context (InPlace.block place chained ⟨helper, args, blockParams, x, xs⟩)
      fun scopes => Conversion.block scopes chained ⟨helper, args, blockParams, b, bs⟩ := by
  simp only [InPlace.block, Conversion.block]
  split
  · exact ifBlock hmain hinverse place chained
  split
  · exact unlessBlock hmain hinverse place
  split
  · exact equalBlock hmain hinverse place
  split
  · exact withBlock hmain hinverse place
  split
  · exact eachBlock hmain hinverse place
  · apply (carryOut place fun _ => .report (.unknownBlock helper.spelling)).bind
    intro _
    exact keptBlock hmain hinverse place

end

end Simulates

namespace InPlace

variable (o : Options)

mutual

/-- A statement is converted in place as it is converted to a log. -/
theorem simulates_statement (s : Statement) (place : Place) (chained : Bool) :
    Simulates place.context (statement o s place chained) fun scopes =>
      Conversion.statement o s scopes chained := by
  cases s with
  | content text => exact Simulates.emit place (.text text)
  | comment text => exact Simulates.emit place (.comment text)
  | mustache head args escaped =>
    exact Simulates.carryOut place fun scopes => mustache o scopes head args escaped
  | block helper args program inverse =>
    rw [statement]
    simp only [Conversion.statement]
    exact Simulates.block (simulates_branch program) (simulates_branch? inverse) place chained
  | embed name args =>
    exact Simulates.carryOut place fun scopes => inclusion o scopes name args

theorem simulates_statements (body : List Statement) (place : Place) (chained : Bool) :
    Simulates place.context (statements o body place chained) fun scopes =>
      Conversion.statements o body scopes chained := by
  cases body with
  | nil => exact Simulates.pure _ ()
  | cons s rest =>
    apply (simulates_statement s place chained).bind
    intro _
    exact simulates_statements rest place chained

theorem simulates_branch (p : Program) : (branch o p).Simulates (Conversion.branch o p) := by
  obtain ⟨body, blockParams⟩ := p
  exact ⟨rfl, simulates_statements body⟩

theorem simulates_branch? (p : Option Program) :
    Option.Rel Branch.Simulates (branch? o p) (Conversion.branch? o p) := by
  cases p with
  | none => exact .none
  | some p => exact .some (simulates_branch p)

end

end InPlace

namespace Left

variable {c : Context} {u v : Workspace} {log : Log}

theorem shared_eq (h : Left c u v log) (hc : c.Held u.pool) :
    v.pool.shared c =
      { conditionals := (u.pool.shared c).conditionals + log.conditionals
        diagnostics := (u.pool.shared c).diagnostics ++ log.diagnostics } := by
  obtain ⟨f, hf⟩ : ∃ f, u.pool.families[c.family]? = some f :=
    ⟨_, List.getElem?_eq_getElem hc.family⟩
  simp [Pool.shared, h.families, hf]

/-- The scopes of a context are all different, so that a mark changes the one at its depth only. -/
theorem style_eq_entries_iff (h : Left c u v log) (hc : c.Held u.pool) {depth : Nat}
    (hdepth : depth ≤ c.depth) :
    (v.pool.cell? c depth).map (·.style) = some .entries ↔
      (u.pool.cell? c depth).map (·.style) = some .entries ∨ depth ∈ log.marks := by
  have hinside : depth < (c.root :: c.inner.reverse).length := by
    rw [List.length_cons, List.length_reverse]
    exact Nat.lt_succ_of_le hdepth
  obtain ⟨n, hn⟩ : ∃ n, c.cellAt? depth = some n := ⟨_, List.getElem?_eq_getElem hinside⟩
  have hlt : n < u.pool.cells.length := hc.cells n (Context.mem_of_cellAt? hn)
  obtain ⟨cell, hcell, hbecomes⟩ := h.cells n _ (List.getElem?_eq_getElem hlt)
  have hmarks : (∃ other ∈ log.marks, c.cellAt? other = some n) ↔ depth ∈ log.marks := by
    constructor
    · rintro ⟨other, hother, hnumber⟩
      have hnodup : (c.root :: c.inner.reverse).Nodup :=
        ((List.reverse_perm c.inner).cons c.root).nodup_iff.mpr hc.nodup
      have heq : depth = other :=
        (List.getElem?_inj hinside hnodup).mp (hn.trans hnumber.symm)
      rwa [heq]
    · intro hmark
      exact ⟨depth, hmark, hn⟩
  rw [hmarks] at hbecomes
  simp only [Pool.cell?, hn, Option.bind_some, hcell, List.getElem?_eq_getElem hlt,
    Option.map_some, Option.some.injEq]
  exact hbecomes.style

end Left

namespace Session

variable {s : Session}

def Held (s : Session) : Prop :=
  s.place.context.Held s.workspace.pool

theorem held_nest (scopes : List Scope) : (nest scopes).2.Held (nest scopes).1 := by
  induction scopes with
  | nil => exact ⟨by decide, by decide, by decide⟩
  | cons scope outer ih => exact ih.nextBelow scope

theorem held_start (o : Options) (scopes : List Scope) (depth : Nat) :
    (start o scopes depth).Held :=
  held_nest scopes

theorem scopes_nest (scopes : List Scope) : (nest scopes).1.scopes (nest scopes).2 = scopes := by
  induction scopes with
  | nil => rfl
  | cons scope outer ih =>
    refine (Pool.scopes_child (held_nest outer) scope).trans ?_
    rw [ih]

@[simp] theorem scopes_start (o : Options) (scopes : List Scope) (depth : Nat) :
    (start o scopes depth).scopes = scopes :=
  scopes_nest scopes

theorem options_start (o : Options) (scopes : List Scope) (depth : Nat) :
    (start o scopes depth).options = o := rfl

theorem families_nest (scopes : List Scope) : (nest scopes).1.families = [{}] := by
  induction scopes with
  | nil => rfl
  | cons scope outer ih => exact ih

theorem family_nest (scopes : List Scope) : (nest scopes).2.family = 0 := by
  induction scopes with
  | nil => rfl
  | cons scope outer ih => exact ih

theorem tally_start (o : Options) (scopes : List Scope) (depth : Nat) :
    (start o scopes depth).tally = {} := by
  simp [tally, start, Pool.shared, families_nest, family_nest]

/-- No scope is marked in the beginning. -/
theorem style_nest (scopes : List Scope) :
    ∀ cell ∈ (nest scopes).1.cells, cell.style = .values := by
  induction scopes with
  | nil => decide
  | cons scope outer ih =>
    intro cell hcell
    rcases List.mem_append.mp hcell with hcell | hcell
    · exact ih cell hcell
    · rw [List.mem_singleton.mp hcell]

theorem style?_start_ne (o : Options) (scopes : List Scope) (depth d : Nat) :
    (start o scopes depth).style? d ≠ some .entries := by
  intro h
  obtain ⟨cell, hcell, hstyle⟩ := Option.map_eq_some_iff.mp h
  obtain ⟨n, -, hn⟩ := Option.bind_eq_some_iff.mp hcell
  have hvalues := style_nest scopes cell (List.mem_of_getElem? hn)
  rw [hvalues] at hstyle
  cases hstyle

/-- A run gives the result of the conversion to a log, and leaves that log. -/
theorem run_left (hs : s.Held) (p : Program) (chained : Bool) :
    (s.run p chained).1 = (program s.options p s.scopes chained).result ∧
      Left s.place.context s.workspace (s.run p chained).2.workspace
        (program s.options p s.scopes chained).log :=
  InPlace.simulates_statements s.options p.body s.place chained s.workspace hs

theorem held_run (hs : s.Held) (p : Program) (chained : Bool) : (s.run p chained).2.Held :=
  (run_left hs p chained).2.held hs

theorem scopes_run (hs : s.Held) (p : Program) (chained : Bool) :
    (s.run p chained).2.scopes = s.scopes :=
  (run_left hs p chained).2.scopes_eq hs

/-- No sequence of runs changes where the session stands or what its scopes introduce. -/
theorem runs_keeps (hs : s.Held) (calls : List (Program × Bool)) :
    (s.runs calls).Held ∧ (s.runs calls).scopes = s.scopes ∧
      (s.runs calls).options = s.options ∧ (s.runs calls).place = s.place := by
  induction calls generalizing s with
  | nil => exact ⟨hs, rfl, rfl, rfl⟩
  | cons call calls ih =>
    obtain ⟨p, chained⟩ := call
    obtain ⟨hheld, hscopes, hoptions, hplace⟩ := ih (held_run hs p chained)
    exact ⟨hheld, hscopes.trans (scopes_run hs p chained), hoptions, hplace⟩

section
variable (hs : s.Held) (p : Program) (chained : Bool)
include hs

theorem fragments_run : (s.run p chained).2.fragments =
    s.fragments ++
      (program s.options p s.scopes chained).log.fragments.map Django.Fragment.render := by
  rw [fragments, (run_left hs p chained).2.buffer, List.map_append]
  rfl

theorem tally_run : (s.run p chained).2.tally =
    { conditionals := s.tally.conditionals + (program s.options p s.scopes chained).log.conditionals
      diagnostics := s.tally.diagnostics ++
        (program s.options p s.scopes chained).log.diagnostics } :=
  (run_left hs p chained).2.shared_eq hs

theorem style?_run (d : Nat) : (s.run p chained).2.style? d = some .entries ↔
    s.style? d = some .entries ∨
      d ≤ s.scopes.length ∧ d ∈ (program s.options p s.scopes chained).log.marks := by
  have hlength : s.scopes.length = s.place.context.depth := Pool.length_scopes hs
  rw [hlength]
  by_cases hd : d ≤ s.place.context.depth
  · simp only [hd, true_and]
    exact (run_left hs p chained).2.style_eq_entries_iff hs hd
  · have hnone : s.place.context.cellAt? d = none := by
      cases hcell : s.place.context.cellAt? d with
      | none => rfl
      | some n => exact absurd (Context.cellAt?_depth_lt hcell) hd
    simp [style?, run, Pool.cell?, hnone, hd]

end

/-- The texts of a converter one after the other are the text of its pieces. -/
theorem output_run (o : Options) (p : Program) (depth : Nat) :
    ((start o [] depth).run p false).2.output =
      Django.Fragment.render (program o p [] false).log.fragments.flatten := by
  have hconcat : ∀ fragments : List Fragment,
      Django.concat (fragments.map Django.Fragment.render) =
        Django.Fragment.render fragments.flatten := by
    intro fragments
    induction fragments with
    | nil => rfl
    | cons f fragments ih =>
      rw [List.map_cons, Django.concat, ih, List.flatten_cons, Django.Fragment.render_append]
  rw [output, fragments_run (held_start o [] depth), scopes_start, options_start]
  exact hconcat _

/-- A document is what a fresh converter at the root writes. -/
theorem ofProgram_eq_start (o : Options) (p : Program) (depth : Nat) :
    let fresh := (start o [] depth).run p false
    Document.ofProgram o p = fresh.1.map fun _ =>
      { output := fresh.2.output
        diagnostics := fresh.2.tally.diagnostics
        conditionals := fresh.2.tally.conditionals } := by
  have hstart := held_start o [] depth
  simp only [Document.ofProgram, (run_left hstart p false).1, tally_run hstart p false,
    output_run o p depth, scopes_start, options_start, tally_start, List.nil_append, Nat.zero_add]

/-- A run after any runs, some of them refused midway, gives what a fresh converter at any depth
gives in the same scopes. It adds the same fragments, diagnostics and conditionals to those that
are there, and a scope is marked afterwards if it was before or the fresh converter marks it. -/
theorem run_eq_fresh (s : Session) (hs : s.Held) (calls : List (Program × Bool)) (p : Program)
    (chained : Bool) (depth : Nat) :
    let before := s.runs calls
    let after := before.run p chained
    let fresh := (start s.options s.scopes depth).run p chained
    after.1 = fresh.1 ∧
      after.2.fragments = before.fragments ++ fresh.2.fragments ∧
      after.2.tally.diagnostics = before.tally.diagnostics ++ fresh.2.tally.diagnostics ∧
      after.2.tally.conditionals = before.tally.conditionals + fresh.2.tally.conditionals ∧
      ∀ d, after.2.style? d = some .entries ↔
        before.style? d = some .entries ∨ fresh.2.style? d = some .entries := by
  intro before after fresh
  obtain ⟨hheld, hscopes, hoptions, -⟩ := runs_keeps hs calls
  have hstart := held_start s.options s.scopes depth
  have hfragments := fragments_run hheld p chained
  have htally := tally_run hheld p chained
  have hstyle := style?_run hheld p chained
  rw [hscopes, hoptions] at hfragments htally hstyle
  have hfreshFragments : fresh.2.fragments = _ := fragments_run hstart p chained
  have hfreshTally : fresh.2.tally = _ := tally_run hstart p chained
  have hfreshStyle : ∀ d, fresh.2.style? d = _ ↔ _ := style?_run hstart p chained
  rw [scopes_start, options_start] at hfreshFragments hfreshTally hfreshStyle
  refine ⟨?_, ?_, ?_, ?_, ?_⟩
  · rw [(run_left hheld p chained).1, (run_left hstart p chained).1, hscopes, hoptions,
      scopes_start]
    rfl
  · rw [hfreshFragments]
    exact hfragments
  · rw [hfreshTally, tally_start]
    exact congrArg Pool.Family.diagnostics htally
  · rw [hfreshTally, tally_start]
    rw [Nat.zero_add]
    exact congrArg Pool.Family.conditionals htally
  · intro d
    rw [hfreshStyle d, or_iff_right (style?_start_ne s.options s.scopes depth d)]
    exact hstyle d

def keyThenLiteral : Program :=
  .ofBody [.mustache (.path (.parse "@key")) {} true, .mustache (.string "a") {} true]

/-- A run that is refused marks a scope and leaves a fragment, and the next one adds what it would
have written anyway. -/
theorem run_afterRefusal :
    let before := (start {} [{ names := ["x"] }] 2).runs [(keyThenLiteral, false)]
    let after := before.run keyThenLiteral true
    before.fragments = ["\x7b\x7b key \x7d\x7d"] ∧ before.style? 1 = some .entries ∧
      after.1 = .error (.literalInterpolation "\"a\"") ∧
      after.2.fragments = before.fragments ++ ["\x7b\x7b key \x7d\x7d"] := by
  obtain ⟨hresult, hfragments, -⟩ :=
    run_eq_fresh (start {} [{ names := ["x"] }] 2) (held_start _ _ _) [(keyThenLiteral, false)]
      keyThenLiteral true 0
  refine ⟨by decide +kernel, by decide +kernel, ?_, ?_⟩
  · rw [hresult]
    rfl
  · rw [hfragments]
    rfl

end Session

end Stencil.Conversion
