import Stencil.Proofs.Conversion.Degradation

/-!
# Conditional tags are counted

The counter of a conversion goes up when the head of a conditional is read, long
before the tags around its branches are put together. In the end it agrees with
the program and with the document: it is the number of conditionals that are
visited and the number of tags that ask a condition. There are fewer closing
tags, because an `if` that is all there is in the inverse of an `if` leaves its
closing tag to the chain it continues.
-/

namespace Stencil

namespace Django.Piece

def asks : Piece → Bool
  | ifOpen _ => true
  | elifOpen _ => true
  | _ => false

end Django.Piece

namespace Handlebars

namespace Statement

def isIf : Statement → Bool
  | block helper _ _ _ => helper.spelling = "if"
  | _ => false

/-- Whether the statement is a block that is shown or not. -/
def isConditional : Statement → Bool
  | block helper _ _ _ => helper.spelling ∈ ["if", "unless", "eq", "is"]
  | _ => false

/-- Whether the statement is an `if` whose inverse is a single `if`. -/
def goesOn : Statement → Bool
  | block helper _ _ (some inverse) => helper.spelling = "if" && inverse.isLoneIf
  | _ => false

theorem goesOn_of_if {helper : Path} (h : helper.spelling = "if") (args : Arguments)
    (program : Program) (inverse : Option Program) :
    (block helper args program inverse).goesOn = inverse.any Program.isLoneIf := by
  cases inverse <;> simp [goesOn, h]

theorem goesOn_of_ne {helper : Path} (h : helper.spelling ≠ "if") (args : Arguments)
    (program : Program) (inverse : Option Program) :
    (block helper args program inverse).goesOn = false := by
  cases inverse <;> simp [goesOn, h]

end Statement

theorem Program.isLoneIf_iff {body : List Statement} {blockParams : List String} :
    Program.isLoneIf ⟨body, blockParams⟩ = true ↔ ∃ s, body = [s] ∧ s.isIf = true := by
  unfold Program.isLoneIf
  split
  · next hbody =>
    cases hbody
    simp [Statement.isIf]
  · next hbody =>
    constructor
    · intro h
      cases h
    · rintro ⟨s, rfl, hs⟩
      cases s with
      | block helper args program inverse => exact absurd rfl (hbody helper args program inverse)
      | _ => cases hs

end Handlebars

namespace Conversion

open Handlebars (Path Expr Arguments Statement Program)
open Django (Piece)

def Uncounted {α : Type} (x : Step α) : Prop :=
  x.log.conditionals = 0

namespace Uncounted

variable {α β : Type}

theorem pure (a : α) : Uncounted (pure a : Step α) := rfl

theorem report (d : Diagnostic) : Uncounted (Step.report d) := rfl

theorem bind {x : Step α} {f : α → Step β} (hx : Uncounted x) (hf : ∀ a, Uncounted (f a)) :
    Uncounted (x >>= f) := by
  obtain ⟨log, result⟩ := x
  cases result with
  | error refusal => exact hx
  | ok a =>
    have hlog : log.conditionals = 0 := hx
    have hrest : (f a).log.conditionals = 0 := hf a
    simp [Uncounted, Step.bind_def, Step.bind, hlog, hrest]

theorem map {x : Step α} (f : α → β) (hx : Uncounted x) :
    Uncounted (do let a ← x; Pure.pure (f a)) :=
  hx.bind fun a => Uncounted.pure (f a)

theorem after_report {x : Step α} (d : Diagnostic) (hx : Uncounted x) :
    Uncounted (do Step.report d; x) :=
  (Uncounted.report d).bind fun _ => hx

theorem of_eq {x : Step α} {log : Log} {result : Except Refusal α} (hx : Uncounted x)
    (h : x = ⟨log, result⟩) : log.conditionals = 0 := by
  subst h
  exact hx

end Uncounted

section
variable (scopes : List Scope)

theorem reference_uncounted (path : Path) : Uncounted (reference scopes path) := by
  unfold reference
  cases loopVariable? path <;> rfl

theorem argument_uncounted (e : Expr) : Uncounted (argument scopes e) := by
  cases e with
  | path path => exact reference_uncounted scopes path
  | _ => rfl

theorem argument?_uncounted (e : Option Expr) : Uncounted (argument? scopes e) := by
  cases e with
  | none => rfl
  | some e => exact argument_uncounted scopes e

theorem operand_uncounted (e : Expr) : Uncounted (operand scopes e) := by
  cases e with
  | path path => exact reference_uncounted scopes path
  | _ => rfl

theorem operands_uncounted (params : List Expr) : Uncounted (operands scopes params) := by
  induction params with
  | nil => rfl
  | cons e rest ih => exact (operand_uncounted scopes e).bind fun word => ih.map (word :: ·)

theorem condition_uncounted (e : Option Expr) : Uncounted (condition scopes e) := by
  cases e with
  | none => rfl
  | some e =>
    cases e with
    | path path => exact reference_uncounted scopes path
    | call helper params hash =>
      rw [condition]
      split
      · exact (operands_uncounted scopes params).map _
      · rfl
    | _ => rfl

theorem collection_uncounted (e : Option Expr) : Uncounted (collection scopes e) := by
  cases e with
  | none => rfl
  | some e =>
    cases e with
    | path path => exact reference_uncounted scopes path
    | _ => rfl

theorem icon_uncounted (o : Options) (args : Arguments) : Uncounted (icon o scopes args) := by
  have hparams (params : List Expr) : Uncounted (iconArguments scopes params) := by
    induction params with
    | nil => rfl
    | cons e rest ih => exact (argument_uncounted scopes e).bind fun text => ih.map (text :: ·)
  have hattribute (key : String) (value : Expr) : Uncounted (attributeText o key value) := by
    unfold attributeText
    split <;> rfl
  have hhash (hash : List (String × Expr)) : Uncounted (iconAttributes o hash) := by
    induction hash with
    | nil => rfl
    | cons entry rest ih => exact (hattribute entry.1 entry.2).bind fun text => ih.map _
  apply (hparams args.params).bind
  intro arguments
  exact (hhash args.hash).bind fun attributes => rfl

theorem mustache_uncounted (o : Options) (head : Expr) (args : Arguments) (escaped : Bool) :
    Uncounted (mustache o scopes head args escaped) := by
  cases head with
  | path path =>
    have hvalue : Uncounted (do
        let value ← reference scopes path
        Step.emit (.output value (!escaped))) :=
      (reference_uncounted scopes path).bind fun value => rfl
    simp only [mustache]
    split
    · exact icon_uncounted scopes o args
    · split
      · exact hvalue
      · exact hvalue.after_report _
  | _ => rfl

theorem inclusion_uncounted (o : Options) (name : Expr) (args : Arguments) :
    Uncounted (inclusion o scopes name args) := by
  have hname : Uncounted (inclusionName o scopes name) := by
    unfold inclusionName
    split
    · rfl
    · rfl
    · split
      · split
        · exact reference_uncounted scopes _
        · rfl
        · rfl
        · rfl
      · rfl
    · rfl
  have hcontext : Uncounted (contextBinding o scopes name args.params) := by
    cases args.params with
    | nil => rfl
    | cons e rest =>
      apply (argument_uncounted scopes e).bind
      intro context
      split <;> rfl
  have hhash (hash : List (String × Expr)) : Uncounted (bindings scopes hash) := by
    induction hash with
    | nil => rfl
    | cons entry rest ih =>
      obtain ⟨key, e⟩ := entry
      rw [bindings]
      cases e with
      | path path =>
        exact (reference_uncounted scopes path).bind fun value => ih.map ((key, value) :: ·)
      | string s => exact (Uncounted.pure _).bind fun value => ih.map ((key, value) :: ·)
      | number n => exact (Uncounted.pure _).bind fun value => ih.map ((key, value) :: ·)
      | boolean b => exact (Uncounted.pure _).bind fun value => ih.map ((key, value) :: ·)
      | _ => exact ih.after_report _
  apply hname.bind
  intro file
  apply hcontext.bind
  intro context
  exact (hhash args.hash).bind fun named => rfl

end

/-- The numbers of a log, against the statements that were visited for it. So many conditionals
are left without a closing tag. -/
structure Tallied (log : Log) (found : List Visit) (leftOpen : Nat) : Prop where
  counted : log.conditionals = found.countP (·.statement.isConditional)
  asked : log.pieces.countP Piece.asks = log.conditionals
  ended : log.pieces.count .endIf + found.countP (·.statement.goesOn) + leftOpen = log.conditionals

/-- The conditionals among statements that are left without a closing tag. -/
def leftOpen (chained : Bool) (body : List Statement) : Nat :=
  if chained then body.countP Statement.isIf else 0

@[simp] theorem leftOpen_false (body : List Statement) : leftOpen false body = 0 := rfl

theorem leftOpen_of_not_isIf {s : Statement} (h : s.isIf = false) (chained : Bool) :
    leftOpen chained [s] = 0 := by
  simp [leftOpen, h]

/-- An inverse that continues a chain leaves one conditional to it. -/
theorem leftOpen_isLoneIf (p : Program) : leftOpen p.isLoneIf p.body = p.isLoneIf.toNat := by
  obtain ⟨body, blockParams⟩ := p
  cases hlone : Program.isLoneIf ⟨body, blockParams⟩ with
  | false => rfl
  | true =>
    obtain ⟨s, rfl, hs⟩ := Program.isLoneIf_iff.mp hlone
    simp [leftOpen, hs]

namespace Tallied

theorem nil {log : Log} (hcount : log.conditionals = 0) (hlog : log.fragments = []) :
    Tallied log [] 0 where
  counted := hcount
  asked := by simp [Log.pieces, hlog, hcount]
  ended := by simp [Log.pieces, hlog, hcount]

theorem append {first second : Log} {found more : List Visit} {m n : Nat}
    (hfirst : Tallied first found m) (hsecond : Tallied second more n) :
    Tallied (first ++ second) (found ++ more) (m + n) where
  counted := by
    rw [Log.append_conditionals, hfirst.counted, hsecond.counted, List.countP_append]
  asked := by
    rw [Log.append_conditionals, ← hfirst.asked, ← hsecond.asked, Log.append_pieces,
      List.countP_append]
  ended := by
    rw [Log.append_conditionals, ← hfirst.ended, ← hsecond.ended, Log.append_pieces,
      List.count_append, List.countP_append]
    omega

/-- A statement that writes one piece, and no conditional tag. -/
theorem single {log : Log} {v : Visit} {piece : Piece} (hlog : log.fragments = [[piece]])
    (hcount : log.conditionals = 0) (hasks : piece.asks = false) (hend : piece ≠ .endIf)
    (hconditional : v.statement.isConditional = false) (hgoes : v.statement.goesOn = false) :
    Tallied log [v] 0 where
  counted := by simp [hcount, hconditional]
  asked := by simp [Log.pieces, hlog, hcount, hasks]
  ended := by simp [Log.pieces, hlog, hcount, hgoes, hend]

/-- Marks on scopes do not count. -/
theorem leave {log : Log} {found : List Visit} {n : Nat} (depth : Nat)
    (h : Tallied log found n) : Tallied (log.leave depth) found n :=
  ⟨h.counted, h.asked, h.ended⟩

/-- A block counts itself if it is a conditional. It then has a closing tag unless it leaves this
to its chain, and its inverse may leave a closing tag to it. -/
theorem enclose {reading body rest : Log} {opening : Piece} {closing : Option Piece} {v : Visit}
    {inner other : List Visit} {n : Nat} (hreading : reading.fragments = [])
    (hcount : reading.conditionals = v.statement.isConditional.toNat)
    (hasks : opening.asks = v.statement.isConditional) (hopening : opening ≠ .endIf)
    (hclosing : closing.toList.countP Piece.asks = 0)
    (hend : closing.toList.count .endIf + n = v.statement.isConditional.toNat)
    (hbody : Tallied body inner 0) (hrest : Tallied rest other v.statement.goesOn.toNat) :
    Tallied (reading.enclose opening body rest closing) (v :: (inner ++ other)) n := by
  have htotal : (reading.enclose opening body rest closing).conditionals =
      v.statement.isConditional.toNat + body.conditionals + rest.conditionals := by
    rw [← hcount]
    rfl
  have hnumber (b : Bool) : (if b = true then 1 else 0) = b.toNat := by
    cases b <;> rfl
  refine ⟨?_, ?_, ?_⟩
  · rw [htotal, hbody.counted, hrest.counted, List.countP_cons, List.countP_append, hnumber]
    omega
  · rw [htotal, ← hbody.asked, ← hrest.asked, pieces_enclose hreading, List.countP_cons,
      List.countP_append, List.countP_append, hclosing, hasks, hnumber]
    omega
  · have hbodyEnded := hbody.ended
    have hrestEnded := hrest.ended
    rw [htotal, pieces_enclose hreading, List.count_cons_of_ne hopening, List.count_append,
      List.count_append, List.countP_cons, List.countP_append, hnumber]
    omega

/-- A block that closes itself and leaves nothing open to it. -/
theorem enclose_own {reading body rest : Log} {opening closing : Piece} {v : Visit}
    {inner other : List Visit} (conditional : Bool)
    (hconditional : v.statement.isConditional = conditional) (hgoes : v.statement.goesOn = false)
    (hreading : reading.fragments = []) (hcount : reading.conditionals = conditional.toNat)
    (hasks : opening.asks = conditional) (hopening : opening ≠ .endIf)
    (hclosing : closing.asks = false) (hend : (closing == .endIf) = conditional)
    (hbody : Tallied body inner 0) (hrest : Tallied rest other 0) :
    Tallied (reading.enclose opening body rest (some closing)) (v :: (inner ++ other)) 0 := by
  rw [← hconditional] at hcount hasks hend
  refine .enclose hreading hcount hasks hopening ?_ ?_ hbody ?_
  · simp [hclosing]
  · rw [Option.toList_some, List.count_singleton, ← hend]
    cases closing == .endIf <;> rfl
  · rwa [hgoes]

end Tallied

section
variable {o : Options} {scopes : List Scope} {inverse : Option Program} {log : Log}

/-- An inverse behind a mark has all its closing tags. -/
theorem alternative_tallied {mark : Piece} (hmark : mark ∈ [.elseMark, .emptyMark, .keptElse])
    (h : alternative scopes mark (branch? o inverse) = ⟨log, .ok ()⟩)
    (hbody : ∀ {other : Program} {body}, inverse = some other →
      statements o other.body scopes false = ⟨body, .ok ()⟩ →
      Tallied body (visitsOfInverse scopes inverse) 0) :
    Tallied log (visitsOfInverse scopes inverse) 0 := by
  rcases alternative_eq_ok h with ⟨hnone, rfl⟩ | ⟨branch, body, hbranch, hrun, rfl⟩
  · rw [inverse_eq_none hnone]
    exact .nil rfl rfl
  · cases inverse with
    | none => cases hbranch
    | some other =>
      cases hbranch
      rw [branch_convert] at hrun
      have hpieces : ({ body with fragments := [[mark], body.pieces] } : Log).pieces =
          mark :: body.pieces := by
        simp [Log.pieces]
      have hplain : mark.asks = false ∧ mark ≠ .endIf := by
        simp only [List.mem_cons, List.not_mem_nil, or_false] at hmark
        rcases hmark with rfl | rfl | rfl <;> exact ⟨rfl, by simp⟩
      obtain ⟨hcounted, hasked, hended⟩ := hbody rfl hrun
      refine ⟨hcounted, ?_, ?_⟩
      · rw [hpieces, List.countP_cons_of_neg (by simp [hplain.1]), hasked]
      · rw [hpieces, List.count_cons_of_ne hplain.2, hended]

/-- The inverse of an `if` leaves a closing tag to it exactly if it continues the chain. -/
theorem chainedAlternative_tallied
    (h : chainedAlternative scopes (branch? o inverse) = ⟨log, .ok ()⟩)
    (hbody : ∀ {other : Program} {chained body}, inverse = some other →
      statements o other.body scopes chained = ⟨body, .ok ()⟩ →
      Tallied body (visitsOfInverse scopes inverse) (leftOpen chained other.body)) :
    Tallied log (visitsOfInverse scopes inverse) (inverse.any Program.isLoneIf).toNat := by
  rcases chainedAlternative_eq_ok h with ⟨hnone, rfl⟩ | ⟨branch, body, hbranch, hrun, rfl⟩
  · rw [inverse_eq_none hnone]
    exact .nil rfl rfl
  · cases inverse with
    | none => cases hbranch
    | some other =>
      cases hbranch
      rw [branch_convert, branch_loneIf] at hrun
      have htallied := hbody rfl hrun
      rw [leftOpen_isLoneIf] at htallied
      rw [branch_loneIf, Option.any_some]
      obtain ⟨hcounted, hasked, hended⟩ := htallied
      cases hlone : other.isLoneIf with
      | true =>
        rw [hlone] at hended
        exact ⟨hcounted, by simpa [Log.pieces] using hasked, by simpa [Log.pieces] using hended⟩
      | false =>
        rw [hlone] at hended
        exact ⟨hcounted, by simpa [Log.pieces, Piece.asks] using hasked,
          by simpa [Log.pieces] using hended⟩

end

/-- A block other than an `if` leaves no closing tag to a chain. -/
theorem leftOpen_of_ne {helper : Path} (h : helper.spelling ≠ "if") (chained : Bool)
    (args : Arguments) (program : Program) (inverse : Option Program) :
    leftOpen chained [.block helper args program inverse] = 0 :=
  leftOpen_of_not_isIf (by simp [Statement.isIf, h]) chained

theorem loopHeader_asks (names : List String) (items : String) (entries : Bool) :
    (loopHeader names items entries).asks = false ∧ loopHeader names items entries ≠ .endIf := by
  cases entries <;> exact ⟨rfl, by simp [loopHeader]⟩

section
variable {o : Options} {scopes : List Scope} {chained : Bool} {log : Log}
variable {helper : Path} {args : Arguments} {program : Program} {inverse : Option Program}

theorem Ran.tallied (h : Ran scopes chained (blockOf o helper args program inverse) log)
    (hmain : ∀ {scopes body}, statements o program.body scopes false = ⟨body, .ok ()⟩ →
      Tallied body (visitsOfBody scopes program.body) 0)
    (hrest : ∀ {other : Program} {chained body}, inverse = some other →
      statements o other.body scopes chained = ⟨body, .ok ()⟩ →
      Tallied body (visitsOfInverse scopes inverse) (leftOpen chained other.body)) :
    Tallied log (visits scopes (.block helper args program inverse))
      (leftOpen chained [.block helper args program inverse]) := by
  have hmarked {mark : Piece} {rest : Log} (hmark : mark ∈ [.elseMark, .emptyMark, .keptElse])
      (hother : alternative scopes mark (branch? o inverse) = ⟨rest, .ok ()⟩) :
      Tallied rest (visitsOfInverse scopes inverse) 0 :=
    alternative_tallied hmark hother fun hsome hrun => hrest hsome hrun
  cases h with
  | @chain reading body rest test hhelper head main other =>
    rw [blockOf_helper] at hhelper
    rw [blockOf_main, branch_convert] at main
    have hzero := (condition_uncounted scopes _).of_eq head
    rw [visits_block_plain (by simp [hhelper]) (by simp [hhelper])]
    refine .enclose ?_ ?_ ?_ ?_ ?_ ?_ (hmain main) ?_
    · simp [(condition_reads scopes _ _ _ head).1]
    · simp [hzero, Statement.isConditional, hhelper]
    · cases chained <;> simp [Piece.asks, Statement.isConditional, hhelper]
    · cases chained <;> simp
    · cases chained <;> simp [Piece.asks]
    · cases chained <;> simp [leftOpen, Statement.isIf, Statement.isConditional, hhelper]
    · rw [Statement.goesOn_of_if hhelper]
      exact chainedAlternative_tallied other hrest
  | @negated reading body rest test hhelper head main other =>
    rw [blockOf_helper] at hhelper
    rw [blockOf_main, branch_convert] at main
    have hne : helper.spelling ≠ "if" := by simp [hhelper]
    have hzero := (condition_uncounted scopes _).of_eq head
    rw [visits_block_plain (by simp [hhelper]) (by simp [hhelper]), leftOpen_of_ne hne]
    refine .enclose_own true ?_ (Statement.goesOn_of_ne hne _ _ _) ?_ ?_ rfl (by simp) rfl rfl
      (hmain main) (hmarked (by simp) other)
    · simp [Statement.isConditional, hhelper]
    · simp [(condition_reads scopes _ _ _ head).1]
    · simp [hzero]
  | @equal reading body rest left hhelper head main other =>
    rw [blockOf_helper] at hhelper
    rw [blockOf_main, branch_convert] at main
    have hne : helper.spelling ≠ "if" ∧ helper.spelling ≠ "each" ∧ helper.spelling ≠ "with" := by
      rcases hhelper with h | h <;> simp [h]
    have hconditional : (Statement.block helper args program inverse).isConditional = true := by
      rcases hhelper with h | h <;> simp [Statement.isConditional, h]
    have hzero := (argument?_uncounted scopes _).of_eq head
    rw [visits_block_plain hne.2.1 hne.2.2, leftOpen_of_ne hne.1]
    refine .enclose_own true hconditional (Statement.goesOn_of_ne hne.1 _ _ _) ?_ ?_ rfl (by simp)
      rfl rfl (hmain main) (hmarked (by simp) other)
    · simp [(argument?_reads scopes _ _ _ head).1]
    · simp [hzero]
  | @entry first second body collection key name items text hhelper shape left right main =>
    rw [blockOf_helper] at hhelper
    rw [blockOf_args, blockOf_blockParams] at shape
    rw [blockOf_main, branch_convert] at main
    have hne : helper.spelling ≠ "if" := by simp [hhelper]
    have hleft := (argument_uncounted scopes _).of_eq left
    have hright := (argument_uncounted scopes _).of_eq right
    have hdropped : (if helper.spelling = "with" ∧ (lookup? args program.blockParams).isSome then []
        else visitsOfInverse scopes inverse) = [] :=
      if_pos ⟨hhelper, by rw [shape]; rfl⟩
    rw [visits_block, Opening.of?_entry hhelper shape, hdropped, leftOpen_of_ne hne]
    refine .enclose_own false ?_ (Statement.goesOn_of_ne hne _ _ _) ?_ ?_ rfl (by simp) rfl rfl
      ((hmain main).leave _) (.nil rfl rfl)
    · simp [Statement.isConditional, hhelper]
    · simp [(argument_reads scopes _ _ _ left).1, (argument_reads scopes _ _ _ right).1]
    · simp [hleft, hright]
  | @loop reading body rest items hhelper head main other =>
    rw [blockOf_helper] at hhelper
    rw [blockOf_args] at head
    rw [blockOf_main, branch_convert] at main
    have hne : helper.spelling ≠ "if" := by simp [hhelper]
    have hzero := (collection_uncounted scopes _).of_eq head
    rw [visits_block, Opening.of?_loop hhelper, if_neg (by simp [hhelper]), inside,
      Opening.loop_scope head, leftOpen_of_ne hne]
    refine .enclose_own false ?_ (Statement.goesOn_of_ne hne _ _ _)
      (collection_reads scopes _ _ _ head).1 hzero (loopHeader_asks _ _ _).1
      (loopHeader_asks _ _ _).2 rfl rfl ((hmain main).leave _) (hmarked (by simp) other)
    simp [Statement.isConditional, hhelper]
  | @kept body rest hhelper shape main other =>
    rw [blockOf_helper] at hhelper shape
    rw [blockOf_args, blockOf_blockParams] at shape
    rw [blockOf_main, branch_convert] at main
    simp only [List.mem_cons, List.not_mem_nil, or_false, not_or] at hhelper
    obtain ⟨hif, hunless, heq, his, heach⟩ := hhelper
    have hshown : ¬ (helper.spelling = "with" ∧ (lookup? args program.blockParams).isSome) := by
      rintro ⟨hwith, hlookup⟩
      rw [shape hwith] at hlookup
      cases hlookup
    have hconditional : (Statement.block helper args program inverse).isConditional = false := by
      simp [Statement.isConditional, hif, hunless, heq, his]
    rw [visits_block, Opening.of?_none heach shape, if_neg hshown, leftOpen_of_ne hif]
    exact .enclose_own false hconditional (Statement.goesOn_of_ne hif _ _ _) rfl rfl rfl (by simp)
      rfl rfl (hmain main) (hmarked (by simp) other)

end

mutual

theorem statement_tallied (o : Options) (s : Statement) {scopes : List Scope} {chained : Bool}
    {log : Log} (h : statement o s scopes chained = ⟨log, .ok ()⟩) :
    Tallied log (visits scopes s) (leftOpen chained [s]) := by
  cases s with
  | content text =>
    rw [statement] at h
    rw [visits, leftOpen_of_not_isIf rfl, Step.emit_eq_ok.mp h]
    exact .single rfl rfl rfl (by simp) rfl rfl
  | comment text =>
    rw [statement] at h
    rw [visits, leftOpen_of_not_isIf rfl, Step.emit_eq_ok.mp h]
    exact .single rfl rfl rfl (by simp) rfl rfl
  | mustache head args escaped =>
    rw [statement] at h
    have hcount := (mustache_uncounted scopes o head args escaped).of_eq h
    rw [visits, leftOpen_of_not_isIf rfl]
    obtain ⟨path, rfl, ⟨-, hrun⟩ | ⟨-, value, -, hfragments, -⟩⟩ := mustache_eq_ok h
    · obtain ⟨arguments, attributes, -, -, hfragments, -⟩ := icon_eq_ok hrun
      exact .single hfragments hcount rfl (by simp) rfl rfl
    · exact .single hfragments hcount rfl (by simp) rfl rfl
  | embed name args =>
    rw [statement] at h
    have hcount := (inclusion_uncounted scopes o name args).of_eq h
    rw [visits, leftOpen_of_not_isIf rfl]
    obtain ⟨file, context, named, -, -, -, hfragments, -⟩ := inclusion_eq_ok h
    exact .single hfragments hcount rfl (by simp) rfl rfl
  | block helper args program inverse =>
    obtain ⟨body, blockParams⟩ := program
    apply (statement_block_ran h).tallied
    · intro inner log hrun
      exact statements_tallied o body hrun
    · intro other continued log hsome hrun
      exact inverse_tallied o inverse hsome hrun

theorem statements_tallied (o : Options) (body : List Statement) {scopes : List Scope}
    {chained : Bool} {log : Log} (h : statements o body scopes chained = ⟨log, .ok ()⟩) :
    Tallied log (visitsOfBody scopes body) (leftOpen chained body) := by
  cases body with
  | nil =>
    rw [statements] at h
    have hopen : leftOpen chained [] = 0 := by
      cases chained <;> rfl
    rw [(Step.pure_eq_ok.mp h).1, visitsOfBody, hopen]
    exact .nil rfl rfl
  | cons s rest =>
    obtain ⟨first, second, hfirst, hsecond, rfl⟩ := statements_cons_eq_ok h
    have hopen : leftOpen chained (s :: rest) = leftOpen chained [s] + leftOpen chained rest := by
      cases chained with
      | false => rfl
      | true => simp only [leftOpen, if_true, List.countP_cons, List.countP_nil]; omega
    rw [visitsOfBody, hopen]
    exact (statement_tallied o s hfirst).append (statements_tallied o rest hsecond)

theorem inverse_tallied (o : Options) (inverse : Option Program) {scopes : List Scope}
    {other : Program} {chained : Bool} {log : Log} (hother : inverse = some other)
    (h : statements o other.body scopes chained = ⟨log, .ok ()⟩) :
    Tallied log (visitsOfInverse scopes inverse) (leftOpen chained other.body) := by
  cases inverse with
  | none => cases hother
  | some program =>
    obtain ⟨body, blockParams⟩ := program
    cases hother
    exact statements_tallied o body h

end

end Conversion

namespace Document

open Handlebars (Program)
open Conversion (visitsOfBody)
open Django (Piece)

/-- The counter of a document is the number of conditionals that are visited, and the number of
tags that ask a condition. A conditional has a closing tag of its own unless it is an `if` that is
all there is in the inverse of an `if`. -/
theorem conditionals_eq_tags {o : Options} {p : Program} {doc : Document}
    (h : ofProgram o p = .ok doc) :
    doc.output = Django.Fragment.render (piecesOf o p) ∧
      doc.conditionals = (visitsOfBody [] p.body).countP (·.statement.isConditional) ∧
      (piecesOf o p).countP Piece.asks = doc.conditionals ∧
      (piecesOf o p).count .endIf =
        doc.conditionals - (visitsOfBody [] p.body).countP (·.statement.goesOn) ∧
      (visitsOfBody [] p.body).countP (·.statement.goesOn) ≤ doc.conditionals := by
  have houtput := output_eq_render h
  obtain ⟨log, hrun, rfl⟩ := ofProgram_eq_ok h
  obtain ⟨hcounted, hasked, hended⟩ := Conversion.statements_tallied o p.body hrun
  have hpieces : piecesOf o p = log.pieces := by
    rw [piecesOf, Conversion.program, hrun]
  rw [Conversion.leftOpen_false, Nat.add_zero] at hended
  rw [hpieces]
  refine ⟨hpieces ▸ houtput, hcounted, hasked, ?_, ?_⟩
  · exact Nat.eq_sub_of_add_eq hended
  · exact Nat.le.intro ((Nat.add_comm _ _).trans hended)

/-- A chain of two conditions, and a lookup whose inverse with its conditional is dropped. -/
def chainAndDroppedInverse : Program :=
  .ofBody [
    .block (.parse "if") { params := [.path (.parse "a")] } (.ofBody [.content "x"])
      (some (.ofBody [.block (.parse "if") { params := [.path (.parse "b")] }
        (.ofBody [.content "y"]) (some (.ofBody [.content "z"]))])),
    .block (.parse "with")
      { params := [.call (.parse "lookup") [.path (.parse "m"), .path (.parse "k")] []] }
      ⟨[.block (.parse "is") { params := [.path (.parse "n"), .number "1"] }
        (.ofBody []) none], ["n"]⟩
      (some (.ofBody [.block (.parse "unless") { params := [.path (.parse "c")] }
        (.ofBody []) none]))]

/-- Three conditionals are visited and asked, and two closing tags are written. -/
theorem conditionals_chainAndDroppedInverse :
    ∃ doc, ofProgram {} chainAndDroppedInverse = .ok doc ∧
      doc.output = "\x7b% if a %\x7dx\x7b% elif b %\x7dy\x7b% else %\x7dz\x7b% endif %\x7d" ++
        "\x7b% with n=m|lookup:k %\x7d\x7b% if n == 1 %\x7d\x7b% endif %\x7d" ++
        "\x7b% endwith %\x7d" ∧
      doc.conditionals = 3 ∧ (piecesOf {} chainAndDroppedInverse).countP Piece.asks = 3 ∧
      (piecesOf {} chainAndDroppedInverse).count .endIf = 2 := by
  have hdoc : ofProgram {} chainAndDroppedInverse = .ok
      { output := "\x7b% if a %\x7dx\x7b% elif b %\x7dy\x7b% else %\x7dz\x7b% endif %\x7d" ++
          "\x7b% with n=m|lookup:k %\x7d\x7b% if n == 1 %\x7d\x7b% endif %\x7d" ++
          "\x7b% endwith %\x7d"
        diagnostics := [.droppedWithElse "n"]
        conditionals := 3 } := rfl
  obtain ⟨-, -, hasked, hended, -⟩ := conditionals_eq_tags hdoc
  have hgoesOn : (visitsOfBody [] chainAndDroppedInverse.body).countP (·.statement.goesOn) = 1 := by
    decide
  rw [hgoesOn] at hended
  exact ⟨_, hdoc, rfl, rfl, hasked, hended⟩

end Document
end Stencil
