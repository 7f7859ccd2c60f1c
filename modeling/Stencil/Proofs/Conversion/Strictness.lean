import Stencil.Proofs.Conversion.Run

/-!
# Strict and lenient partials

A context that is handed to a partial is refused or only noted. Nothing else
depends on that choice, so both conversions of a program go the same way up to
the first such context. The strict one gives a document exactly where the
lenient one notes no context, and then both leave the same behind.
-/

namespace Stencil.Conversion

open Handlebars (Path Expr Arguments Statement Program)
open Django (Piece Fragment)

/-- No context that is handed to a partial is noted. -/
def Log.Quiet (log : Log) : Prop :=
  ∀ d ∈ log.diagnostics, d.kind ≠ .partialContext

theorem Log.quiet_append {a b : Log} : (a ++ b).Quiet ↔ a.Quiet ∧ b.Quiet :=
  List.forall_mem_append

namespace Step

variable {α β : Type}

/-- A step that notes no context, whether it is refused or not. -/
def Quiet (x : Step α) : Prop :=
  x.log.Quiet

theorem quiet_pure (a : α) : (pure a : Step α).Quiet := List.forall_mem_nil _

theorem quiet_write (f : Fragment) : (write f).Quiet := List.forall_mem_nil _

theorem quiet_emit (p : Piece) : (emit p).Quiet := List.forall_mem_nil _

theorem quiet_count : count.Quiet := List.forall_mem_nil _

theorem quiet_refuse (r : Refusal) : (refuse r : Step α).Quiet := List.forall_mem_nil _

theorem quiet_report {d : Diagnostic} (h : d.kind ≠ .partialContext) : (report d).Quiet :=
  List.forall_mem_singleton.mpr h

theorem Quiet.bind {x : Step α} {f : α → Step β} (h : x.Quiet) (hf : ∀ a, (f a).Quiet) :
    (x >>= f).Quiet := by
  obtain ⟨log, result⟩ := x
  cases result with
  | error refusal => exact h
  | ok a => exact Log.quiet_append.mpr ⟨h, hf a⟩

/-- A step succeeds as another one does where that one notes no context, and nowhere else. -/
def Stricter (strict lenient : Step α) : Prop :=
  ∀ log a, strict = ⟨log, .ok a⟩ ↔ lenient = ⟨log, .ok a⟩ ∧ log.Quiet

theorem Quiet.stricter {x : Step α} (h : x.Quiet) : Stricter x x := by
  intro log a
  rw [iff_self_and]
  rintro rfl
  exact h

namespace Stricter

variable {x y : Step α} {f g : α → Step β}

/-- A sequence succeeds where all of its steps do, and notes what they note. -/
theorem bind (h : Stricter x y) (hnext : ∀ a, Stricter (f a) (g a)) :
    Stricter (x >>= f) (y >>= g) := by
  intro log b
  rw [bind_eq_ok, bind_eq_ok]
  constructor
  · rintro ⟨first, a, second, hfirst, hsecond, rfl⟩
    obtain ⟨hfirst, hquiet⟩ := (h _ _).mp hfirst
    obtain ⟨hsecond, hquiet'⟩ := (hnext a _ _).mp hsecond
    exact ⟨⟨first, a, second, hfirst, hsecond, rfl⟩, Log.quiet_append.mpr ⟨hquiet, hquiet'⟩⟩
  · rintro ⟨⟨first, a, second, hfirst, hsecond, rfl⟩, hquiet⟩
    obtain ⟨hquiet, hquiet'⟩ := Log.quiet_append.mp hquiet
    exact ⟨first, a, second, (h _ _).mpr ⟨hfirst, hquiet⟩, (hnext a _ _).mpr ⟨hsecond, hquiet'⟩,
      rfl⟩

theorem behind (h : x.Quiet) (hnext : ∀ a, Stricter (f a) (g a)) :
    Stricter (x >>= f) (x >>= g) :=
  h.stricter.bind hnext

theorem gather {x y : Step Unit} (h : Stricter x y) : Stricter x.gather y.gather := by
  intro log body
  rw [gather_eq_ok, gather_eq_ok]
  constructor
  · rintro ⟨inner, hinner, rfl, rfl⟩
    obtain ⟨hinner, hquiet⟩ := (h _ _).mp hinner
    exact ⟨⟨inner, hinner, rfl, rfl⟩, hquiet⟩
  · rintro ⟨⟨inner, hinner, rfl, rfl⟩, hquiet⟩
    exact ⟨inner, (h _ _).mpr ⟨hinner, hquiet⟩, rfl, rfl⟩

theorem gatherWithin {x y : Step Unit} (h : Stricter x y) (depth : Nat) :
    Stricter (x.gatherWithin depth) (y.gatherWithin depth) := by
  intro log body
  rw [gatherWithin_eq_ok, gatherWithin_eq_ok]
  constructor
  · rintro ⟨inner, hinner, rfl, rfl⟩
    obtain ⟨hinner, hquiet⟩ := (h _ _).mp hinner
    exact ⟨⟨inner, hinner, rfl, rfl⟩, hquiet⟩
  · rintro ⟨⟨inner, hinner, rfl, rfl⟩, hquiet⟩
    exact ⟨inner, (h _ _).mpr ⟨hinner, hquiet⟩, rfl, rfl⟩

/-- Where one step succeeds only with a context noted, the stricter one does not succeed. -/
theorem refuse {r : Refusal} (h : ∀ log a, y = ⟨log, .ok a⟩ → ¬ log.Quiet) :
    Stricter (.refuse r) y :=
  fun log a => iff_of_false refuse_ne_ok fun ⟨hy, hquiet⟩ => h log a hy hquiet

end Stricter
end Step

open Step (Quiet Stricter quiet_pure quiet_write quiet_emit quiet_count quiet_report)

section
variable (scopes : List Scope)

theorem reference_quiet (path : Path) : (reference scopes path).Quiet := by
  unfold reference
  split <;> exact List.forall_mem_nil _

theorem argument_quiet (e : Expr) : (argument scopes e).Quiet := by
  cases e with
  | path path => exact reference_quiet scopes path
  | _ => exact quiet_pure _

theorem argument?_quiet (e : Option Expr) : (argument? scopes e).Quiet := by
  cases e with
  | none => exact quiet_pure _
  | some e => exact argument_quiet scopes e

theorem operands_quiet (params : List Expr) : (operands scopes params).Quiet := by
  induction params with
  | nil => exact quiet_pure _
  | cons e rest ih =>
    have hword : (operand scopes e).Quiet := by
      cases e with
      | path path => exact reference_quiet scopes path
      | _ => exact quiet_pure _
    exact hword.bind fun _ => ih.bind fun _ => quiet_pure _

theorem unknownCondition_quiet (e : Option Expr) : (unknownCondition e).Quiet :=
  Quiet.bind (quiet_report nofun) fun _ => quiet_pure _

theorem condition_quiet (e : Option Expr) : (condition scopes e).Quiet := by
  cases e with
  | none => exact unknownCondition_quiet none
  | some e =>
    cases e with
    | path path => exact reference_quiet scopes path
    | call helper params hash =>
      rw [condition]
      split
      · exact (operands_quiet scopes params).bind fun _ => quiet_pure _
      · exact unknownCondition_quiet _
    | _ => exact quiet_pure _

theorem collection_quiet (e : Option Expr) : (collection scopes e).Quiet := by
  have hother : (do Step.report (.eachOver (written? e)); pure unresolved : Step String).Quiet :=
    Quiet.bind (quiet_report nofun) fun _ => quiet_pure _
  cases e with
  | none => exact hother
  | some e =>
    cases e with
    | path path => exact reference_quiet scopes path
    | _ => exact hother

theorem inclusionName_quiet (o : Options) (name : Expr) : (inclusionName o scopes name).Quiet := by
  have hcomputed : (computedName name).Quiet :=
    Quiet.bind (quiet_report nofun) fun _ => quiet_pure _
  unfold inclusionName
  split
  · exact quiet_pure _
  · exact quiet_pure _
  · split
    · split
      · exact reference_quiet scopes _
      · exact hcomputed
      · exact quiet_pure _
      · exact hcomputed
    · exact hcomputed
  · exact hcomputed

theorem bindings_quiet (hash : List (String × Expr)) : (bindings scopes hash).Quiet := by
  induction hash with
  | nil => exact quiet_pure _
  | cons pair rest ih =>
    obtain ⟨key, e⟩ := pair
    cases e with
    | path path => exact (reference_quiet scopes path).bind fun _ => ih.bind fun _ => quiet_pure _
    | string s => exact (quiet_pure _).bind fun _ => ih.bind fun _ => quiet_pure _
    | number n => exact (quiet_pure _).bind fun _ => ih.bind fun _ => quiet_pure _
    | boolean b => exact (quiet_pure _).bind fun _ => ih.bind fun _ => quiet_pure _
    | _ => exact Quiet.bind (quiet_report nofun) fun _ => ih

theorem iconArguments_quiet (params : List Expr) : (iconArguments scopes params).Quiet := by
  induction params with
  | nil => exact quiet_pure _
  | cons e rest ih => exact (argument_quiet scopes e).bind fun _ => ih.bind fun _ => quiet_pure _

end

abbrev strict (o : Options) : Options := { o with strictPartials := true }

abbrev lenient (o : Options) : Options := { o with strictPartials := false }

section
variable (o : Options) (scopes : List Scope)

theorem iconAttributes_stricter (hash : List (String × Expr)) :
    Stricter (iconAttributes (strict o) hash) (iconAttributes (lenient o) hash) := by
  induction hash with
  | nil => exact (quiet_pure _).stricter
  | cons pair rest ih =>
    have htext : (attributeText o pair.1 pair.2).Quiet := by
      unfold attributeText
      split
      · exact quiet_pure _
      · exact Quiet.bind (quiet_report nofun) fun _ => quiet_pure _
    exact .behind htext fun _ => ih.bind fun _ => (quiet_pure _).stricter

theorem mustache_stricter (head : Expr) (args : Arguments) (escaped : Bool) :
    Stricter (mustache (strict o) scopes head args escaped)
      (mustache (lenient o) scopes head args escaped) := by
  cases head with
  | path path =>
    have hvalue : (do
        let value ← reference scopes path
        Step.emit (.output value (!escaped))).Quiet :=
      (reference_quiet scopes path).bind fun _ => quiet_emit _
    simp only [mustache]
    split
    · exact .behind (iconArguments_quiet scopes args.params) fun _ =>
        (iconAttributes_stricter o args.hash).bind fun _ => (quiet_emit _).stricter
    · split
      · exact hvalue.stricter
      · have hnote : (Step.report (.droppedArguments path.spelling)).Quiet :=
          quiet_report fun h => by cases h
        exact (hnote.bind fun _ => hvalue).stricter
  | _ => exact (Step.quiet_refuse _).stricter

/-- The choice is made at one place. -/
theorem contextBinding_stricter (name : Expr) (params : List Expr) :
    Stricter (contextBinding (strict o) scopes name params)
      (contextBinding (lenient o) scopes name params) := by
  cases params with
  | nil => exact (quiet_pure _).stricter
  | cons e rest =>
    refine Stricter.behind (argument_quiet scopes e) fun context => Stricter.refuse ?_
    intro log a hlenient hquiet
    obtain ⟨_, _, _, hreport, hpure, rfl⟩ := Step.bind_eq_ok.mp hlenient
    rw [Step.report_eq_ok.mp hreport] at hquiet
    exact (Log.quiet_append.mp hquiet).1 _ List.mem_cons_self rfl

theorem inclusion_stricter (name : Expr) (args : Arguments) :
    Stricter (inclusion (strict o) scopes name args) (inclusion (lenient o) scopes name args) := by
  apply Stricter.behind (inclusionName_quiet scopes o name)
  intro file
  apply (contextBinding_stricter o scopes name args.params).bind
  intro context
  exact Stricter.behind (bindings_quiet scopes args.hash) fun _ => (quiet_emit _).stricter

end

structure Branch.Stricter (strict lenient : Branch) : Prop where
  loneIf : strict.loneIf = lenient.loneIf
  convert : ∀ scopes chained,
    Step.Stricter (strict.convert scopes chained) (lenient.convert scopes chained)

section
variable {scopes : List Scope} {main main' : Branch} {inverse inverse' : Option Branch}
variable {helper : Path} {args : Arguments} {blockParams : List String}

theorem alternative_stricter (h : Option.Rel Branch.Stricter inverse inverse') (mark : Piece) :
    Stricter (alternative scopes mark inverse) (alternative scopes mark inverse') := by
  cases h with
  | none => exact (quiet_pure _).stricter
  | some h =>
    exact (h.convert scopes false).gather.bind fun body =>
      .behind (quiet_emit mark) fun _ => (quiet_write body).stricter

theorem chainedAlternative_stricter (h : Option.Rel Branch.Stricter inverse inverse') :
    Stricter (chainedAlternative scopes inverse) (chainedAlternative scopes inverse') := by
  cases h with
  | none => exact (quiet_pure _).stricter
  | some h =>
    simp only [chainedAlternative, h.loneIf]
    refine (h.convert scopes _).gather.bind fun body => ?_
    split
    · exact (quiet_write body).stricter
    · exact .behind (quiet_emit .elseMark) fun _ => (quiet_write body).stricter

variable (hmain : main.Stricter main') (hinverse : Option.Rel Branch.Stricter inverse inverse')
include hmain hinverse

theorem ifBlock_stricter (chained : Bool) :
    Stricter (ifBlock scopes chained ⟨helper, args, blockParams, main, inverse⟩)
      (ifBlock scopes chained ⟨helper, args, blockParams, main', inverse'⟩) := by
  apply Stricter.behind (condition_quiet scopes _)
  intro test
  apply Stricter.behind quiet_count
  intro _
  apply Stricter.behind (quiet_emit _)
  intro _
  apply (hmain.convert scopes false).gather.bind
  intro body
  apply Stricter.behind (quiet_write body)
  intro _
  apply (chainedAlternative_stricter hinverse).bind
  intro _
  split
  · exact (quiet_pure _).stricter
  · exact (quiet_emit _).stricter

theorem conditionalBranches_stricter :
    Stricter (conditionalBranches scopes ⟨helper, args, blockParams, main, inverse⟩)
      (conditionalBranches scopes ⟨helper, args, blockParams, main', inverse'⟩) := by
  apply (hmain.convert scopes false).gather.bind
  intro body
  apply Stricter.behind (quiet_write body)
  intro _
  exact (alternative_stricter hinverse .elseMark).bind fun _ => (quiet_emit _).stricter

theorem keptBlock_stricter :
    Stricter (keptBlock scopes ⟨helper, args, blockParams, main, inverse⟩)
      (keptBlock scopes ⟨helper, args, blockParams, main', inverse'⟩) := by
  apply Stricter.behind (quiet_emit _)
  intro _
  apply (hmain.convert scopes false).gather.bind
  intro body
  apply Stricter.behind (quiet_write body)
  intro _
  exact (alternative_stricter hinverse .keptElse).bind fun _ => (quiet_emit _).stricter

theorem lookupBlock_stricter (collection key : Expr) (name : String) :
    Stricter (lookupBlock scopes ⟨helper, args, blockParams, main, inverse⟩ collection key name)
      (lookupBlock scopes ⟨helper, args, blockParams, main', inverse'⟩ collection key name) := by
  apply Stricter.behind (argument_quiet scopes collection)
  intro items
  apply Stricter.behind (argument_quiet scopes key)
  intro text
  apply Stricter.behind (quiet_emit _)
  intro _
  apply ((hmain.convert _ false).gatherWithin scopes.length).bind
  intro gathered
  apply Stricter.behind (quiet_write gathered.1)
  intro _
  -- The inverse is dropped, and all that counts of it is whether it is there.
  cases hinverse with
  | none => exact (quiet_emit _).stricter
  | some _ =>
    have hnote : (Step.report (.droppedWithElse name)).Quiet := quiet_report nofun
    exact .behind hnote fun _ => (quiet_emit _).stricter

theorem withBlock_stricter :
    Stricter (withBlock scopes ⟨helper, args, blockParams, main, inverse⟩)
      (withBlock scopes ⟨helper, args, blockParams, main', inverse'⟩) := by
  cases hshape : lookup? args blockParams with
  | some entry =>
    simp only [withBlock, hshape]
    exact lookupBlock_stricter hmain hinverse _ _ _
  | none =>
    simp only [withBlock, hshape]
    exact .behind (quiet_report nofun) fun _ => keptBlock_stricter hmain hinverse

theorem eachBlock_stricter :
    Stricter (eachBlock scopes ⟨helper, args, blockParams, main, inverse⟩)
      (eachBlock scopes ⟨helper, args, blockParams, main', inverse'⟩) := by
  apply Stricter.behind (collection_quiet scopes _)
  intro items
  apply ((hmain.convert _ false).gatherWithin scopes.length).bind
  intro gathered
  apply Stricter.behind (quiet_emit _)
  intro _
  apply Stricter.behind (quiet_write gathered.1)
  intro _
  exact (alternative_stricter hinverse .emptyMark).bind fun _ => (quiet_emit _).stricter

theorem block_stricter (chained : Bool) :
    Stricter (block scopes chained ⟨helper, args, blockParams, main, inverse⟩)
      (block scopes chained ⟨helper, args, blockParams, main', inverse'⟩) := by
  unfold block
  split
  · exact ifBlock_stricter hmain hinverse chained
  split
  · exact .behind (condition_quiet scopes _) fun _ => .behind quiet_count fun _ =>
      .behind (quiet_emit _) fun _ => conditionalBranches_stricter hmain hinverse
  split
  · exact .behind (argument?_quiet scopes _) fun _ => .behind quiet_count fun _ =>
      .behind (quiet_emit _) fun _ => conditionalBranches_stricter hmain hinverse
  split
  · exact withBlock_stricter hmain hinverse
  split
  · exact eachBlock_stricter hmain hinverse
  · exact .behind (quiet_report nofun) fun _ => keptBlock_stricter hmain hinverse

end

section
variable (o : Options)

mutual

theorem statement_stricter (s : Statement) (scopes : List Scope) (chained : Bool) :
    Stricter (statement (strict o) s scopes chained) (statement (lenient o) s scopes chained) := by
  cases s with
  | content text => exact (quiet_emit _).stricter
  | comment text => exact (quiet_emit _).stricter
  | mustache head args escaped => exact mustache_stricter o scopes head args escaped
  | embed name args => exact inclusion_stricter o scopes name args
  | block helper args program inverse =>
    obtain ⟨body, blockParams⟩ := program
    have hmain : (branch (strict o) ⟨body, blockParams⟩).Stricter
        (branch (lenient o) ⟨body, blockParams⟩) :=
      ⟨rfl, statements_stricter body⟩
    exact block_stricter hmain (branch?_stricter inverse) chained

theorem statements_stricter (body : List Statement) (scopes : List Scope) (chained : Bool) :
    Stricter (statements (strict o) body scopes chained)
      (statements (lenient o) body scopes chained) := by
  cases body with
  | nil => exact (quiet_pure _).stricter
  | cons s rest =>
    exact (statement_stricter s scopes chained).bind fun _ =>
      statements_stricter rest scopes chained

theorem branch?_stricter (inverse : Option Program) :
    Option.Rel Branch.Stricter (branch? (strict o) inverse) (branch? (lenient o) inverse) := by
  cases inverse with
  | none => exact .none
  | some program =>
    obtain ⟨body, blockParams⟩ := program
    exact .some ⟨rfl, statements_stricter body⟩

end

end
end Stencil.Conversion

namespace Stencil.Document

open Handlebars (Program)
open Conversion (strict lenient)

theorem ofProgram_eq_ok_iff {o : Options} {p : Program} {doc : Document} :
    ofProgram o p = .ok doc ↔
      ∃ log, Conversion.statements o p.body [] false = ⟨log, .ok ()⟩ ∧
        doc = ⟨Django.Fragment.render log.pieces, log.diagnostics, log.conditionals⟩ := by
  refine ⟨ofProgram_eq_ok, ?_⟩
  rintro ⟨log, hrun, rfl⟩
  rw [ofProgram, Conversion.program, hrun]
  rfl

/-- With strict partials a program has the document that it has without, provided that no context
is noted there, and no document otherwise. Where it has none without, it has none. -/
theorem ofProgram_strict_iff (o : Options) (p : Program) :
    (∀ doc, ofProgram { o with strictPartials := true } p = .ok doc ↔
      ofProgram { o with strictPartials := false } p = .ok doc ∧
        ∀ d ∈ doc.diagnostics, d.kind ≠ .partialContext) ∧
    ∀ refusal, ofProgram { o with strictPartials := false } p = .error refusal →
      ∃ other, ofProgram { o with strictPartials := true } p = .error other := by
  have hdoc : ∀ doc, ofProgram (strict o) p = .ok doc ↔
      ofProgram (lenient o) p = .ok doc ∧ ∀ d ∈ doc.diagnostics, d.kind ≠ .partialContext := by
    have hruns := Conversion.statements_stricter o p.body [] false
    intro doc
    rw [ofProgram_eq_ok_iff, ofProgram_eq_ok_iff]
    constructor
    · rintro ⟨log, hrun, rfl⟩
      obtain ⟨hrun, hquiet⟩ := (hruns log ()).mp hrun
      exact ⟨⟨log, hrun, rfl⟩, hquiet⟩
    · rintro ⟨⟨log, hrun, rfl⟩, hquiet⟩
      exact ⟨log, (hruns log ()).mpr ⟨hrun, hquiet⟩, rfl⟩
  refine ⟨hdoc, fun refusal hlenient => ?_⟩
  cases hstrict : ofProgram (strict o) p with
  | error other => exact ⟨other, rfl⟩
  | ok doc =>
    have hdocument := ((hdoc doc).mp hstrict).1
    rw [hlenient] at hdocument
    cases hdocument

/-- A loop whose elements are handed to a partial, behind a literal if there is one. -/
def handedOver (literals : List Handlebars.Statement) : Program :=
  let path := fun name : String => Handlebars.Expr.path (.parse name)
  .ofBody (literals ++ [.block (.parse "each") { params := [path "items"] }
    (.ofBody [.embed (path "card.hbs") { params := [path "name"] }]) none])

theorem strict_handedOver :
    (∃ doc, ofProgram { strictPartials := false } (handedOver []) = .ok doc) ∧
    (∀ doc, ofProgram {} (handedOver []) ≠ .ok doc) ∧
    ∃ refusal, ofProgram {} (handedOver [.mustache (.number "1") {} true]) = .error refusal := by
  have hlenient : ofProgram { strictPartials := false } (handedOver []) =
      .ok ⟨"\x7b% for items_i in items %\x7d\x7b% include \"card.html\" with " ++
        "items_i.name=\"does-not-work\" %\x7d\x7b% endfor %\x7d",
        [.contextPassed "items_i.name" "card.hbs"], 0⟩ := by rfl
  refine ⟨⟨_, hlenient⟩, fun doc hstrict => ?_, ?_⟩
  · obtain ⟨hdocument, hquiet⟩ := ((ofProgram_strict_iff {} (handedOver [])).1 doc).mp hstrict
    cases hlenient.symm.trans hdocument
    exact hquiet _ List.mem_cons_self rfl
  · exact (ofProgram_strict_iff {} _).2 (.literalInterpolation "1") rfl

end Stencil.Document
