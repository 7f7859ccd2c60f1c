import Stencil.Proofs.Conversion.Mirror
import Stencil.Proofs.Conversion.Refusals
import Stencil.Proofs.Django.Rendering
import Stencil.Proofs.Handlebars.Print

/-!
# Conditionals show the same branch

A program of texts, `if` and `unless` shows the program or the inverse of each
block, as its condition says. Its document has the same branches in another
arrangement, with a chain of conditions in place of nested inverses, and Django
shows the same text whichever conditions hold.
-/

namespace Stencil.Handlebars

/-- A character of a name: a letter, a digit, an underscore, or a character outside of the first
128 that is not blank. -/
def isNameChar (c : Char) : Bool :=
  c.isAlphanum || c = '_' || (128 ≤ c.toNat && !Text.isBlank c)

/-- A reference that names a variable outside of all scopes, or a member of one, and that no
condition is put together with. -/
structure Path.Plain (path : Path) : Prop where
  depth : path.depth = 0
  data : path.data = false
  parts : path.parts ≠ []
  names : ∀ part ∈ path.parts, part ≠ "" ∧ part.toList.all isNameChar = true
  operand : path.joined ∉ Django.operators

/-- A text in which no tag begins, or a block that shows its program or its inverse as the value
of a plain reference says. -/
def Statement.Conditional : Statement → Prop
  | .content text => '{' ∉ text.toList
  | .block helper args _ _ =>
    (helper.spelling = "if" ∨ helper.spelling = "unless") ∧
      ∃ path, args.params = [.path path] ∧ path.Plain
  | _ => False

def Program.Conditional (p : Program) : Prop :=
  AllBody Statement.Conditional p.body

/-- Whether a conditional shows its program rather than its inverse, given which references
hold. -/
def taken (truth : String → Bool) (helper : Path) (args : Arguments) : Bool :=
  match args.params with
  | [.path path] =>
    if helper.spelling = "unless" then !truth path.joined else truth path.joined
  | _ => false

mutual

def Statement.shown (truth : String → Bool) : Statement → List Char
  | .content text => text.toList
  | .block helper args ⟨body, _⟩ inverse =>
    if taken truth helper args then shownOfBody truth body else shownOfInverse truth inverse
  | _ => []

def shownOfBody (truth : String → Bool) : List Statement → List Char
  | [] => []
  | s :: body => s.shown truth ++ shownOfBody truth body

def shownOfInverse (truth : String → Bool) : Option Program → List Char
  | none => []
  | some ⟨body, _⟩ => shownOfBody truth body

end

def Program.shown (truth : String → Bool) (p : Program) : List Char :=
  shownOfBody truth p.body

theorem Statement.shown_block (truth : String → Bool) (helper : Path) (args : Arguments)
    (program : Program) (inverse : Option Program) :
    (Statement.block helper args program inverse).shown truth =
      if taken truth helper args then shownOfBody truth program.body
      else shownOfInverse truth inverse := by
  obtain ⟨body, blockParams⟩ := program
  rw [shown]

theorem shownOfInverse_some (truth : String → Bool) (program : Program) :
    shownOfInverse truth (some program) = shownOfBody truth program.body := by
  obtain ⟨body, blockParams⟩ := program
  rw [shownOfInverse]

theorem isBlank_eq_false_of_isAlphanum {c : Char} (h : c.isAlphanum = true) :
    Text.isBlank c = false := by
  change ((decide (65 ≤ c.val ∧ c.val ≤ 90) || decide (97 ≤ c.val) && decide (c.val ≤ 122)) ||
    decide (48 ≤ c.val) && decide (c.val ≤ 57)) = true at h
  simp only [Bool.or_eq_true, Bool.and_eq_true, decide_eq_true_eq, UInt32.le_iff_toNat_le] at h
  change ((65 ≤ c.toNat ∧ c.toNat ≤ 90) ∨ (97 ≤ c.toNat ∧ c.toNat ≤ 122)) ∨
    (48 ≤ c.toNat ∧ c.toNat ≤ 57) at h
  simp only [Text.isBlank, Bool.or_eq_false_iff, Bool.and_eq_false_iff, decide_eq_false_iff_not,
    beq_eq_false_iff_ne]
  omega

theorem solid_of_isNameChar {c : Char} (h : isNameChar c = true) :
    Text.isBlank c = false ∧ c ≠ '}' := by
  refine ⟨?_, ?_⟩
  · simp only [isNameChar, Bool.or_eq_true, Bool.and_eq_true, decide_eq_true_eq,
      Bool.not_eq_true'] at h
    rcases h with (h | rfl) | ⟨-, h⟩
    · exact isBlank_eq_false_of_isAlphanum h
    · decide
    · exact h
  · rintro rfl
    revert h
    decide

theorem Path.Plain.solid {path : Path} (h : path.Plain) : Django.Solid path.joined := by
  refine ⟨?_, ?_⟩
  · obtain ⟨first, rest, hparts⟩ := List.exists_cons_of_ne_nil h.parts
    have hfirst := (h.names first (hparts ▸ List.mem_cons_self)).1
    rw [Path.joined, hparts]
    cases rest <;> simp_all [String.intercalate_cons_cons]
  · rw [List.all_eq_true]
    intro c hc
    obtain hdot | ⟨part, hpart, hc⟩ := Text.mem_intercalate hc
    · rw [List.mem_singleton.mp (hdot : c ∈ ['.'])]
      decide
    · simpa using solid_of_isNameChar (List.all_eq_true.mp (h.names part hpart).2 c hc)

end Stencil.Handlebars

namespace Stencil.Conversion

open Handlebars (Path Expr Arguments Statement Program AllBody AllInverse shownOfBody
  shownOfInverse taken)
open Django (Piece Node Arms Token Shows Continues piecesOf piecesBehind)

/-- A plain reference is the condition as it stands. -/
theorem condition_plain {path : Path} (h : path.Plain) :
    (condition [] (some (.path path))).result = .ok path.joined := by
  simp [condition, reference, loopVariable?, h.data, Step.resolve, Scopes.resolve, h.depth]

section
variable {helper : Path} {args : Arguments} {program : Program} {inverse : Option Program}
variable {truth : String → Bool} {test : String}

/-- The condition of a conditional is a name, and its value says which branch is taken. -/
theorem exists_plain (h : (Statement.block helper args program inverse).Conditional)
    (head : (condition [] args.params[0]?).result = .ok test) :
    Django.Solid test ∧ test ∉ Django.operators ∧ ∀ truth, taken truth helper args =
      if helper.spelling = "unless" then !truth test else truth test := by
  obtain ⟨-, path, hparams, hplain⟩ := h
  rw [hparams] at head
  cases (condition_plain hplain).symm.trans head
  refine ⟨hplain.solid, hplain.operand, fun truth => ?_⟩
  rw [taken, hparams]

end

mutual

/-- A text or a conditional becomes an element that shows the same. -/
theorem Mirrors.shows {o : Options} (truth : String → Bool) :
    ∀ {scopes : List Scope} {s : Statement} {node : Node}, Mirrors o scopes s node →
      scopes = [] → s.All Statement.Conditional →
      Shows truth (node.pieces.map Piece.token) (s.shown truth)
  | _, _, _, .content, _, h => by
    rw [Node.pieces, Statement.shown]
    exact .text h
  | _, _, _, .chain name head main other _, rfl, h => by
    obtain ⟨hblock, hbody, hrest⟩ := Statement.all_block.mp h
    obtain ⟨hsolid, hoperand, htaken⟩ := exists_plain hblock head
    have hmain := main.shows truth rfl hbody
    have hother := other.continues truth rfl hrest
    have hshows := Shows.conditional (by simpa using hsolid) (Django.test?_holds hoperand)
      hmain hother
    simpa [Node.pieces, Statement.shown_block, htaken, name, Django.token_holds,
      Django.token_endIf] using hshows
  | _, _, _, .negated name head main other, rfl, h => by
    obtain ⟨hblock, hbody, hrest⟩ := Statement.all_block.mp h
    obtain ⟨hsolid, hoperand, htaken⟩ := exists_plain hblock head
    have hmain := main.shows truth rfl hbody
    have hother := other.continues truth rfl hrest
    have hnot : Django.Solid "not" := by decide
    have hshows := Shows.conditional (by simpa [hnot] using hsolid) (Django.test?_fails hoperand)
      hmain hother
    rw [← Arms.pieces_ofOption] at hshows
    simpa [Node.pieces, Statement.shown_block, htaken, name, Django.token_fails,
      Django.token_endIf] using hshows
  | _, _, _, .comment, _, h => h.elim
  | _, _, _, .value .., _, h => h.elim
  | _, _, _, .icon .., _, h => h.elim
  | _, _, _, .inclusion .., _, h => h.elim
  | _, _, _, .equal name _ _ _, _, h => by
    have hhelper := (Statement.all_block.mp h).1.1
    rcases name with name | name <;> simp [name] at hhelper
  | _, _, _, .loop name _ _ _, _, h => by
    have hhelper := (Statement.all_block.mp h).1.1
    simp [name] at hhelper
  | _, _, _, .entry name _ _ _, _, h => by
    have hhelper := (Statement.all_block.mp h).1.1
    simp [name] at hhelper
  | _, _, _, .raw name _ _ _, _, h => by
    have hhelper := (Statement.all_block.mp h).1.1
    rcases hhelper with hhelper | hhelper <;> simp [hhelper] at name

theorem MirrorsBody.shows {o : Options} (truth : String → Bool) :
    ∀ {scopes : List Scope} {body : List Statement} {nodes : List Node},
      MirrorsBody o scopes body nodes → scopes = [] → AllBody Statement.Conditional body →
      Shows truth ((piecesOf nodes).map Piece.token) (shownOfBody truth body)
  | _, _, _, .nil, _, _ => by
    rw [piecesOf, shownOfBody]
    exact .nil
  | _, _, _, .cons first others, hscopes, h => by
    rw [piecesOf, shownOfBody, List.map_append]
    exact (first.shows truth hscopes h.1).append (others.shows truth hscopes h.2)

/-- The inverse of an `unless` becomes at most one further branch. -/
theorem MirrorsInverse.continues {o : Options} (truth : String → Bool) :
    ∀ {scopes : List Scope} {inverse : Option Program} {rest : Option (List Node)},
      MirrorsInverse o scopes inverse rest → scopes = [] →
      AllInverse Statement.Conditional inverse →
      Continues truth ((piecesBehind .elseMark rest).map Piece.token)
        (shownOfInverse truth inverse)
  | _, _, _, .none, _, _ => by
    rw [piecesBehind, shownOfInverse]
    exact .nil
  | _, _, _, .some body, hscopes, h => by
    rw [piecesBehind, Handlebars.shownOfInverse_some, List.map_cons, Django.token_else]
    exact .otherwise (body.shows truth hscopes (Handlebars.allInverse_some.mp h))

/-- The inverse of an `if` becomes the branches that follow it. -/
theorem MirrorsChain.continues {o : Options} (truth : String → Bool) :
    ∀ {scopes : List Scope} {inverse : Option Program} {rest : Arms},
      MirrorsChain o scopes inverse rest → scopes = [] →
      AllInverse Statement.Conditional inverse →
      Continues truth (rest.pieces.map Piece.token) (shownOfInverse truth inverse)
  | _, _, _, .done, _, _ => by
    rw [Arms.pieces, shownOfInverse]
    exact .nil
  | _, _, _, .otherwise _ body, hscopes, h => by
    rw [Arms.pieces, Handlebars.shownOfInverse_some, List.map_cons, Django.token_else]
    exact .otherwise (body.shows truth hscopes (Handlebars.allInverse_some.mp h))
  | _, _, _, .elif name head main other, rfl, h => by
    have hif := (Handlebars.allInverse_some.mp h).1
    obtain ⟨hblock, hbody, hrest⟩ := Statement.all_block.mp hif
    obtain ⟨hsolid, hoperand, htaken⟩ := exists_plain hblock head
    have hmain := main.shows truth rfl hbody
    have hother := other.continues truth rfl hrest
    have hcontinues := Continues.elif (by simpa using hsolid) (Django.test?_holds hoperand)
      hmain hother
    simpa [Arms.pieces, Handlebars.shownOfInverse_some, shownOfBody, Statement.shown_block, htaken,
      name, Django.token_elif] using hcontinues

end

/-- Texts and conditionals are not refused. -/
theorem Visit.refusal?_conditional {o : Options} {visit : Visit}
    (h : visit.statement.Conditional) : visit.refusal? o = none := by
  obtain ⟨scopes, s⟩ := visit
  cases s with
  | content text => rfl
  | block helper args program inverse => rfl
  | _ => cases h

end Stencil.Conversion

namespace Stencil.Document

open Handlebars (Path Program)
open Conversion (Visit)

theorem exists_of_conditional (o : Options) {p : Program} (h : p.Conditional) :
    ∃ doc, ofProgram o p = .ok doc := by
  rw [(ofProgram_refusal? o p).2, List.findSome?_eq_none_iff]
  intro visit hvisit
  exact Visit.refusal?_conditional (Conversion.forall_visitsOfBody [] p.body h visit hvisit)

/-- A program of texts and conditionals has a document, and whichever conditions hold, Django shows
for it what the program shows. -/
theorem render_eq_shown (o : Options) (p : Program) (h : p.Conditional) :
    ∃ doc, ofProgram o p = .ok doc ∧
      ∀ truth : String → Bool,
        Django.render truth doc.output.toList = some (p.shown truth) := by
  obtain ⟨doc, hdoc⟩ := exists_of_conditional o h
  refine ⟨doc, hdoc, fun truth => ?_⟩
  obtain ⟨log, hrun, rfl⟩ := ofProgram_eq_ok hdoc
  obtain ⟨nodes, hnodes, hpieces⟩ := Conversion.statements_mirror o p.body hrun
  rw [hpieces, Django.render_toList]
  exact (hnodes.shows truth rfl h).render_eq

/-- An `unless` in the inverse of a chain, with an `if` alone in its own inverse. -/
def unlessInChain : Program :=
  let path := fun name : String => Handlebars.Expr.path (.parse name)
  .ofBody [
    .block (.parse "if") { params := [path "a"] } (.ofBody [.content "x"])
      (some (.ofBody [
        .block (.parse "if") { params := [path "user.b"] } (.ofBody [.content "y"])
          (some (.ofBody [
            .block (.parse "unless") { params := [path "c"] } (.ofBody [.content "z"])
              (some (.ofBody [
                .block (.parse "if") { params := [path "d"] } (.ofBody [.content "w"])
                  none]))]))])),
    .content "."]

theorem unlessInChain_conditional : unlessInChain.Conditional := by
  have hplain : ∀ name ∈ ["a", "user.b", "c", "d"], (Path.parse name).Plain := by
    intro name hname
    simp only [List.mem_cons, List.not_mem_nil, or_false] at hname
    rcases hname with rfl | rfl | rfl | rfl <;>
      exact ⟨by decide, by decide, by decide +kernel, by decide +kernel, by decide +kernel⟩
  simp only [List.forall_mem_cons, List.not_mem_nil, false_imp_iff, implies_true,
    and_true] at hplain
  obtain ⟨ha, hb, hc, hd⟩ := hplain
  simp [unlessInChain, Program.Conditional, Program.ofBody, Handlebars.AllBody,
    Handlebars.AllInverse, Handlebars.Statement.All, Handlebars.Statement.Conditional, ha, hb, hc,
    hd]

theorem render_unlessInChain :
    ∃ doc, ofProgram {} unlessInChain = .ok doc ∧
      doc.output = "\x7b% if a %\x7dx\x7b% elif user.b %\x7dy\x7b% else %\x7d" ++
        "\x7b% if not c %\x7dz\x7b% else %\x7d\x7b% if d %\x7dw\x7b% endif %\x7d" ++
        "\x7b% endif %\x7d\x7b% endif %\x7d." ∧
      Django.render (· = "user.b") doc.output.toList = some ['y', '.'] ∧
      Django.render (· = "a") doc.output.toList = some ['x', '.'] ∧
      Django.render (fun _ => false) doc.output.toList = some ['z', '.'] ∧
      Django.render (· ∈ ["c", "d"]) doc.output.toList = some ['w', '.'] := by
  obtain ⟨doc, hdoc, hrender⟩ := render_eq_shown {} unlessInChain unlessInChain_conditional
  refine ⟨doc, hdoc, ?_, ?_, ?_, ?_, ?_⟩
  · cases hdoc
    decide +kernel
  all_goals
    rw [hrender]
    decide +kernel

end Stencil.Document
