import Stencil.Document

/-!
# Runs that succeed

What a successful step leaves behind, read off its parts. A sequence succeeds
when its steps do, and a block succeeds in one of a few ways, each of which
determines the whole log. Everything known about conversions rests on these
inversions; no later proof opens a block again.
-/

namespace Stencil.Conversion

open Handlebars (Path Expr Arguments)
open Django (Piece Fragment)

namespace Log

@[simp] theorem append_fragments (a b : Log) :
    (a ++ b).fragments = a.fragments ++ b.fragments := rfl

@[simp] theorem append_diagnostics (a b : Log) :
    (a ++ b).diagnostics = a.diagnostics ++ b.diagnostics := rfl

@[simp] theorem append_conditionals (a b : Log) :
    (a ++ b).conditionals = a.conditionals + b.conditionals := rfl

@[simp] theorem append_marks (a b : Log) : (a ++ b).marks = a.marks ++ b.marks := rfl

/-- The pieces of a log in the order in which they are written. -/
def pieces (log : Log) : List Piece :=
  log.fragments.flatten

@[simp] theorem pieces_mk (fragments : List Fragment) (diagnostics : List Diagnostic)
    (conditionals : Nat) (marks : List Nat) :
    (Log.mk fragments diagnostics conditionals marks).pieces = fragments.flatten := rfl

@[simp] theorem append_pieces (a b : Log) : (a ++ b).pieces = a.pieces ++ b.pieces := by
  simp [pieces]

end Log

namespace Step

variable {α β : Type}

theorem result_eq_ok {x : Step α} {log : Log} {a : α} (h : x = ⟨log, .ok a⟩) :
    x.result = .ok a := by
  rw [h]

theorem bind_eq_ok {x : Step α} {f : α → Step β} {log : Log} {b : β} :
    x >>= f = ⟨log, .ok b⟩ ↔
      ∃ first a second, x = ⟨first, .ok a⟩ ∧ f a = ⟨second, .ok b⟩ ∧ log = first ++ second := by
  obtain ⟨first, result⟩ := x
  constructor
  · intro h
    cases result with
    | error e =>
      rw [bind_def, Step.bind] at h
      cases h
    | ok a =>
      rw [bind_def, Step.bind] at h
      cases hf : f a with
      | mk second outcome =>
        simp only [hf, mk.injEq] at h
        obtain ⟨rfl, rfl⟩ := h
        exact ⟨first, a, second, rfl, hf, rfl⟩
  · rintro ⟨_, a, second, hx, hf, rfl⟩
    cases hx
    simp [bind_def, Step.bind, hf]

theorem pure_eq_ok {a b : α} {log : Log} :
    (pure a : Step α) = ⟨log, .ok b⟩ ↔ log = {} ∧ a = b := by
  simp [pure_def, eq_comm]

theorem write_eq_ok {f : Fragment} {log : Log} {u : Unit} :
    write f = ⟨log, .ok u⟩ ↔ log = { fragments := [f] } := by
  simp [write, eq_comm]

theorem emit_eq_ok {p : Piece} {log : Log} {u : Unit} :
    emit p = ⟨log, .ok u⟩ ↔ log = { fragments := [[p]] } :=
  write_eq_ok

theorem report_eq_ok {d : Diagnostic} {log : Log} {u : Unit} :
    report d = ⟨log, .ok u⟩ ↔ log = { diagnostics := [d] } := by
  simp [report, eq_comm]

theorem count_eq_ok {log : Log} {u : Unit} :
    count = ⟨log, .ok u⟩ ↔ log = { conditionals := 1 } := by
  simp [count, eq_comm]

theorem refuse_ne_ok {r : Refusal} {log : Log} {a : α} : refuse r ≠ ⟨log, .ok a⟩ := by
  simp [refuse]

theorem gather_eq_ok {x : Step Unit} {log : Log} {body : Fragment} :
    x.gather = ⟨log, .ok body⟩ ↔
      ∃ inner, x = ⟨inner, .ok ()⟩ ∧ log = { inner with fragments := [] } ∧
        body = inner.pieces := by
  obtain ⟨inner, result⟩ := x
  cases result with
  | error e => simp [gather, Except.map]
  | ok u => simp [gather, Except.map, Log.pieces, eq_comm]

theorem gatherWithin_eq_ok {depth : Nat} {x : Step Unit} {log : Log} {body : Fragment × Bool} :
    x.gatherWithin depth = ⟨log, .ok body⟩ ↔
      ∃ inner, x = ⟨inner, .ok ()⟩ ∧
        log = { inner with fragments := [], marks := inner.marks.filter (· ≤ depth) } ∧
        body = (inner.pieces, inner.marks.contains (depth + 1)) := by
  obtain ⟨inner, result⟩ := x
  cases result with
  | error e => simp [gatherWithin, Except.map]
  | ok u => simp [gatherWithin, Except.map, Log.pieces, eq_comm]

end Step

/-- What a block leaves behind: an opening piece, the body as one fragment, whatever follows it,
and perhaps a closing piece. -/
def Log.enclose (reading : Log) (opening : Piece) (body rest : Log) (closing : Option Piece) :
    Log where
  fragments := reading.fragments ++ [opening] :: body.pieces ::
    (rest.fragments ++ closing.toList.map fun piece => [piece])
  diagnostics := reading.diagnostics ++ body.diagnostics ++ rest.diagnostics
  conditionals := reading.conditionals + body.conditionals + rest.conditionals
  marks := reading.marks ++ body.marks ++ rest.marks

theorem pieces_enclose {reading body rest : Log} {opening : Piece} {closing : Option Piece}
    (h : reading.fragments = []) :
    (reading.enclose opening body rest closing).pieces =
      opening :: (body.pieces ++ rest.pieces ++ closing.toList) := by
  cases closing with
  | none => simp [Log.enclose, Log.pieces, h]
  | some piece => simp [Log.enclose, Log.pieces, h]

/-- The log of a body, seen from outside the scope that was opened for it. -/
def Log.leave (depth : Nat) (body : Log) : Log :=
  { body with marks := body.marks.filter (· ≤ depth) }

@[simp] theorem Log.pieces_leave (depth : Nat) (body : Log) :
    (body.leave depth).pieces = body.pieces := rfl

def keptNote (b : Block) : Diagnostic :=
  if b.helper.spelling = "with" then .otherWith else .unknownBlock b.helper.spelling

/-- The ways in which a block can be written, with the whole log that each leaves. -/
inductive Ran (scopes : List Scope) (chained : Bool) (b : Block) : Log → Prop
  | chain {reading body rest : Log} {test : String}
      (helper : b.helper.spelling = "if")
      (head : condition scopes b.args.params[0]? = ⟨reading, .ok test⟩)
      (main : b.main.convert scopes false = ⟨body, .ok ()⟩)
      (inverse : chainedAlternative scopes b.inverse = ⟨rest, .ok ()⟩) :
      Ran scopes chained b ((reading ++ { conditionals := 1 }).enclose
        (if chained then .elifOpen test else .ifOpen (.holds test)) body rest
        (if chained then none else some .endIf))
  | negated {reading body rest : Log} {test : String}
      (helper : b.helper.spelling = "unless")
      (head : condition scopes b.args.params[0]? = ⟨reading, .ok test⟩)
      (main : b.main.convert scopes false = ⟨body, .ok ()⟩)
      (inverse : alternative scopes .elseMark b.inverse = ⟨rest, .ok ()⟩) :
      Ran scopes chained b ((reading ++ { conditionals := 1 }).enclose
        (.ifOpen (.fails test)) body rest (some .endIf))
  | equal {reading body rest : Log} {left : String}
      (helper : b.helper.spelling = "eq" ∨ b.helper.spelling = "is")
      (head : argument? scopes b.args.params[0]? = ⟨reading, .ok left⟩)
      (main : b.main.convert scopes false = ⟨body, .ok ()⟩)
      (inverse : alternative scopes .elseMark b.inverse = ⟨rest, .ok ()⟩) :
      Ran scopes chained b ((reading ++ { conditionals := 1 }).enclose
        (.ifOpen (.equal left ((b.args.params[1]?.map Expr.asWritten).getD unresolved)))
        body rest (some .endIf))
  | entry {first second body : Log} {collection key : Expr} {name items text : String}
      (helper : b.helper.spelling = "with")
      (shape : lookup? b.args b.blockParams = some (collection, key, name))
      (left : argument scopes collection = ⟨first, .ok items⟩)
      (right : argument scopes key = ⟨second, .ok text⟩)
      (main : b.main.convert ({ names := [name] } :: scopes) false = ⟨body, .ok ()⟩) :
      Ran scopes chained b ((first ++ second).enclose (.withOpen name items text)
        (body.leave scopes.length)
        { diagnostics := if b.inverse.isSome then [.droppedWithElse name] else [] }
        (some .endWith))
  | loop {reading body rest : Log} {items : String}
      (helper : b.helper.spelling = "each")
      (head : collection scopes b.args.params[0]? = ⟨reading, .ok items⟩)
      (main : b.main.convert ({ names := loopNames b.blockParams items } :: scopes) false =
        ⟨body, .ok ()⟩)
      (inverse : alternative scopes .emptyMark b.inverse = ⟨rest, .ok ()⟩) :
      Ran scopes chained b (reading.enclose
        (loopHeader (loopNames b.blockParams items) items
          (b.blockParams.length = 2 || body.marks.contains (scopes.length + 1)))
        (body.leave scopes.length) rest (some .endFor))
  | kept {body rest : Log}
      (helper : b.helper.spelling ∉ ["if", "unless", "eq", "is", "each"])
      (shape : b.helper.spelling = "with" → lookup? b.args b.blockParams = none)
      (main : b.main.convert scopes false = ⟨body, .ok ()⟩)
      (inverse : alternative scopes .keptElse b.inverse = ⟨rest, .ok ()⟩) :
      Ran scopes chained b (({ diagnostics := [keptNote b] } : Log).enclose
        (.keptOpen b.helper.spelling) body rest (some (.keptClose b.helper.spelling)))

variable {scopes : List Scope} {chained : Bool} {b : Block} {log : Log}

theorem Ran.cast {same : Log} (h : Ran scopes chained b log) (heq : log = same) :
    Ran scopes chained b same :=
  heq ▸ h

theorem ifBlock_ran (helper : b.helper.spelling = "if")
    (h : ifBlock scopes chained b = ⟨log, .ok ()⟩) : Ran scopes chained b log := by
  unfold ifBlock at h
  simp only [Step.bind_eq_ok, Step.count_eq_ok, Step.emit_eq_ok, Step.write_eq_ok,
    Step.gather_eq_ok] at h
  obtain ⟨reading, test, _, head, ⟨_, _, _, rfl, ⟨_, _, _, rfl, ⟨_, _, _, ⟨body, main, rfl, rfl⟩,
    ⟨_, _, _, rfl, ⟨rest, _, closing, inverse, hclose, rfl⟩, rfl⟩, rfl⟩, rfl⟩, rfl⟩, rfl⟩ := h
  have hlog : closing = { fragments :=
      (if chained then none else some Piece.endIf).toList.map fun piece => [piece] } := by
    cases chained with
    | false => exact Step.emit_eq_ok.mp hclose
    | true => exact (Step.pure_eq_ok.mp hclose).1
  subst hlog
  refine (Ran.chain helper head main inverse).cast ?_
  simp [Log.append_def, Log.append, Log.enclose, Nat.add_assoc]

/-- The two branches of a conditional that cannot continue a chain, behind its opening tag. -/
theorem conditionalBranches_eq_ok (h : conditionalBranches scopes b = ⟨log, .ok ()⟩) :
    ∃ body rest, b.main.convert scopes false = ⟨body, .ok ()⟩ ∧
      alternative scopes .elseMark b.inverse = ⟨rest, .ok ()⟩ ∧
      ∀ (reading : Log) (opening : Piece),
        reading ++ ({ fragments := [[opening]] } ++ log) =
          reading.enclose opening body rest (some .endIf) := by
  unfold conditionalBranches at h
  simp only [Step.bind_eq_ok, Step.emit_eq_ok, Step.write_eq_ok, Step.gather_eq_ok] at h
  obtain ⟨_, _, _, ⟨body, main, rfl, rfl⟩, ⟨_, _, _, rfl, ⟨rest, _, _, inverse, rfl, rfl⟩, rfl⟩,
    rfl⟩ := h
  refine ⟨body, rest, main, inverse, fun reading opening => ?_⟩
  simp [Log.append_def, Log.append, Log.enclose, Nat.add_assoc]

theorem unlessBlock_ran (helper : b.helper.spelling = "unless")
    (h : unlessBlock scopes b = ⟨log, .ok ()⟩) : Ran scopes chained b log := by
  unfold unlessBlock at h
  simp only [Step.bind_eq_ok, Step.count_eq_ok, Step.emit_eq_ok] at h
  obtain ⟨reading, test, _, head, ⟨_, _, _, rfl, ⟨_, _, _, rfl, branches, rfl⟩, rfl⟩, rfl⟩ := h
  obtain ⟨body, rest, main, inverse, hlog⟩ := conditionalBranches_eq_ok branches
  rw [← Log.append_assoc, hlog]
  exact .negated helper head main inverse

theorem equalBlock_ran (helper : b.helper.spelling = "eq" ∨ b.helper.spelling = "is")
    (h : equalBlock scopes b = ⟨log, .ok ()⟩) : Ran scopes chained b log := by
  unfold equalBlock at h
  simp only [Step.bind_eq_ok, Step.count_eq_ok, Step.emit_eq_ok] at h
  obtain ⟨reading, left, _, head, ⟨_, _, _, rfl, ⟨_, _, _, rfl, branches, rfl⟩, rfl⟩, rfl⟩ := h
  obtain ⟨body, rest, main, inverse, hlog⟩ := conditionalBranches_eq_ok branches
  rw [← Log.append_assoc, hlog]
  exact .equal helper head main inverse

/-- A kept block, behind the note that it is kept. -/
theorem keptBlock_ran
    (helper : b.helper.spelling ∉ ["if", "unless", "eq", "is", "each"])
    (shape : b.helper.spelling = "with" → lookup? b.args b.blockParams = none)
    (h : keptBlock scopes b = ⟨log, .ok ()⟩) :
    Ran scopes chained b (({ diagnostics := [keptNote b] } : Log) ++ log) := by
  unfold keptBlock at h
  simp only [Step.bind_eq_ok, Step.emit_eq_ok, Step.write_eq_ok, Step.gather_eq_ok] at h
  obtain ⟨_, _, _, rfl, ⟨_, _, _, ⟨body, main, rfl, rfl⟩,
    ⟨_, _, _, rfl, ⟨rest, _, _, inverse, rfl, rfl⟩, rfl⟩, rfl⟩, rfl⟩ := h
  refine (Ran.kept helper shape main inverse).cast ?_
  simp [Log.append_def, Log.append, Log.enclose]

theorem lookupBlock_ran {collection key : Expr} {name : String}
    (helper : b.helper.spelling = "with")
    (shape : lookup? b.args b.blockParams = some (collection, key, name))
    (h : lookupBlock scopes b collection key name = ⟨log, .ok ()⟩) : Ran scopes chained b log := by
  unfold lookupBlock at h
  simp only [Step.bind_eq_ok, Step.emit_eq_ok, Step.write_eq_ok, Step.gatherWithin_eq_ok] at h
  obtain ⟨first, items, _, left, ⟨second, text, _, right, ⟨_, _, _, rfl,
    ⟨_, _, _, ⟨body, main, rfl, rfl⟩, ⟨_, _, closing, rfl, h, rfl⟩, rfl⟩, rfl⟩, rfl⟩, rfl⟩ := h
  have hlog : closing =
      { fragments := [[.endWith]]
        diagnostics := if b.inverse.isSome then [.droppedWithElse name] else [] } := by
    split at h
    · next dropped =>
      simp only [Step.bind_eq_ok, Step.report_eq_ok, Step.emit_eq_ok] at h
      obtain ⟨_, _, _, rfl, rfl, rfl⟩ := h
      simp [dropped, Log.append_def, Log.append]
    · next whole => simp [Step.emit_eq_ok.mp h, whole]
  subst hlog
  refine (Ran.entry helper shape left right main).cast ?_
  simp [Log.append_def, Log.append, Log.enclose, Log.leave, Log.pieces, Nat.add_assoc]

theorem eachBlock_ran (helper : b.helper.spelling = "each")
    (h : eachBlock scopes b = ⟨log, .ok ()⟩) : Ran scopes chained b log := by
  unfold eachBlock at h
  simp only [Step.bind_eq_ok, Step.emit_eq_ok, Step.write_eq_ok, Step.gatherWithin_eq_ok] at h
  obtain ⟨reading, items, _, head, ⟨_, _, _, ⟨body, main, rfl, rfl⟩, ⟨_, _, _, rfl,
    ⟨_, _, _, rfl, ⟨rest, _, _, inverse, rfl, rfl⟩, rfl⟩, rfl⟩, rfl⟩, rfl⟩ := h
  refine (Ran.loop helper head main inverse).cast ?_
  simp [Log.append_def, Log.append, Log.enclose, Log.leave, Log.pieces, Nat.add_assoc]

/-- Everything that a block can do when it is not refused. -/
theorem block_ran (h : block scopes chained b = ⟨log, .ok ()⟩) : Ran scopes chained b log := by
  unfold block at h
  split at h
  · next hif => exact ifBlock_ran hif h
  next hif =>
  split at h
  · next hunless => exact unlessBlock_ran hunless h
  next hunless =>
  split at h
  · next heq => exact equalBlock_ran (by simpa using heq) h
  next heq =>
  split at h
  · next hwith =>
    unfold withBlock at h
    split at h
    · next shape => exact lookupBlock_ran hwith shape h
    · next shape =>
      obtain ⟨_, _, _, hnote, hkept, rfl⟩ := Step.bind_eq_ok.mp h
      have hrun : Ran scopes chained b _ :=
        keptBlock_ran (by simp [hwith]) (fun _ => shape) hkept
      rwa [keptNote, if_pos hwith, ← Step.report_eq_ok.mp hnote] at hrun
  next hwith =>
  split at h
  · next heach => exact eachBlock_ran heach h
  · next heach =>
    obtain ⟨_, _, _, hnote, hkept, rfl⟩ := Step.bind_eq_ok.mp h
    have hhelper : b.helper.spelling ∉ ["if", "unless", "eq", "is", "each"] := by
      simp_all
    have hrun : Ran scopes chained b _ :=
      keptBlock_ran hhelper (fun h => absurd h hwith) hkept
    rwa [keptNote, if_neg hwith, ← Step.report_eq_ok.mp hnote] at hrun

/-- An inverse behind its mark, if there is one. -/
theorem alternative_eq_ok {mark : Piece} {inverse : Option Branch}
    (h : alternative scopes mark inverse = ⟨log, .ok ()⟩) :
    inverse = none ∧ log = {} ∨
      ∃ branch body, inverse = some branch ∧ branch.convert scopes false = ⟨body, .ok ()⟩ ∧
        log = { body with fragments := [[mark], body.pieces] } := by
  cases inverse with
  | none => exact .inl ⟨rfl, (Step.pure_eq_ok.mp h).1⟩
  | some branch =>
    simp only [alternative, Step.bind_eq_ok, Step.emit_eq_ok, Step.write_eq_ok,
      Step.gather_eq_ok] at h
    obtain ⟨_, _, _, ⟨body, hbody, rfl, rfl⟩, ⟨_, _, _, rfl, rfl, rfl⟩, rfl⟩ := h
    refine .inr ⟨branch, body, rfl, hbody, ?_⟩
    simp [Log.append_def, Log.append]

/-- The inverse of an `if`: nothing, the rest of the chain, or a branch behind its mark. -/
theorem chainedAlternative_eq_ok {inverse : Option Branch}
    (h : chainedAlternative scopes inverse = ⟨log, .ok ()⟩) :
    inverse = none ∧ log = {} ∨
      ∃ branch body, inverse = some branch ∧
        branch.convert scopes branch.loneIf = ⟨body, .ok ()⟩ ∧
        log = { body with fragments :=
          if branch.loneIf then [body.pieces]
          else [[.elseMark], body.pieces] } := by
  cases inverse with
  | none => exact .inl ⟨rfl, (Step.pure_eq_ok.mp h).1⟩
  | some branch =>
    simp only [chainedAlternative, Step.bind_eq_ok, Step.gather_eq_ok] at h
    obtain ⟨_, _, _, ⟨body, hbody, rfl, rfl⟩, hwrite, rfl⟩ := h
    refine .inr ⟨branch, body, rfl, hbody, ?_⟩
    split at hwrite
    · next lone => simp [Step.write_eq_ok.mp hwrite, lone, Log.append_def, Log.append]
    · next lone =>
      simp only [Step.bind_eq_ok, Step.emit_eq_ok, Step.write_eq_ok] at hwrite
      obtain ⟨_, _, _, rfl, rfl, rfl⟩ := hwrite
      simp [lone, Log.append_def, Log.append]

theorem statements_cons_eq_ok {o : Options} {s : Handlebars.Statement}
    {rest : List Handlebars.Statement}
    (h : statements o (s :: rest) scopes chained = ⟨log, .ok ()⟩) :
    ∃ first second, statement o s scopes chained = ⟨first, .ok ()⟩ ∧
      statements o rest scopes chained = ⟨second, .ok ()⟩ ∧ log = first ++ second := by
  rw [statements] at h
  obtain ⟨first, _, second, hs, hrest, rfl⟩ := Step.bind_eq_ok.mp h
  exact ⟨first, second, hs, hrest, rfl⟩

end Stencil.Conversion

/-- The document of a program is what its conversion leaves. -/
theorem Stencil.Document.ofProgram_eq_ok {o : Options} {p : Handlebars.Program} {doc : Document}
    (h : ofProgram o p = .ok doc) :
    ∃ log, Conversion.statements o p.body [] false = ⟨log, .ok ()⟩ ∧
      doc = ⟨Django.Fragment.render log.pieces, log.diagnostics, log.conditionals⟩ := by
  unfold ofProgram Conversion.program at h
  cases hrun : Conversion.statements o p.body [] false with
  | mk log result =>
    rw [hrun] at h
    cases result with
    | error refusal => cases h
    | ok u =>
      cases h
      exact ⟨log, rfl, rfl⟩

/-- The document of a template is that of the program it is read as. -/
theorem Stencil.Document.ofSource_eq_ok_iff {o : Options} {source : String} {doc : Document} :
    ofSource o source = .ok doc ↔
      ∃ p, Handlebars.Program.parse source = .ok p ∧ ofProgram o p = .ok doc := by
  rw [ofSource]
  cases Handlebars.Program.parse source with
  | error e => simp [ofParsed]
  | ok p =>
    simp only [ofParsed, Except.ok.injEq, exists_eq_left']
    cases ofProgram o p with
    | error refusal => constructor <;> (intro h; cases h)
    | ok other => constructor <;> (intro h; cases h; rfl)

/-- Documents can be compared once the reason for a failure is left out. -/
theorem Stencil.Document.ofSource_eq_ok_of_toOption {o : Options} {source : String}
    {doc : Document} (h : (ofSource o source).toOption = some doc) :
    ofSource o source = .ok doc := by
  cases hdoc : ofSource o source with
  | error e =>
    rw [hdoc] at h
    cases h
  | ok other =>
    rw [hdoc] at h
    cases h
    rfl
