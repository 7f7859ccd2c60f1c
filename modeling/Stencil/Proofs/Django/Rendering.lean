import Stencil.Proofs.Django.Token

/-!
# How Django renders conditionals

A template is rendered token by token. Each conditional that is open remembers
whether one of its branches has been shown, and a text is shown when the current
branch of every open conditional is. The first branch whose condition holds is
shown, the branch behind `else` when there is none.

Tokens that show a text whatever is open around them can be put in sequence and
under conditions; what they show is then the text of the branch that is taken.
-/

namespace Stencil.Django

def words (inner : List Char) : List String :=
  ((inner.splitOnP Text.isBlank).filter (· ≠ [])).map String.ofList

def operators : List String :=
  ["or", "and", "not", "in", "is", "==", "!=", ">", ">=", "<", "<="]

/-- The value of a condition that is a name or the negation of one. -/
def test? (truth : String → Bool) : List String → Option Bool
  | [name] => if name ∈ operators then none else some (truth name)
  | ["not", name] => if name ∈ operators then none else some (!truth name)
  | _ => none

theorem test?_holds {truth : String → Bool} {name : String} (h : name ∉ operators) :
    test? truth [name] = some (truth name) := by
  rw [test?, if_neg h]

theorem test?_fails {truth : String → Bool} {name : String} (h : name ∉ operators) :
    test? truth ["not", name] = some (!truth name) := by
  rw [test?, if_neg h]

/-- How far a conditional has got. -/
inductive Stage
  /-- No branch has been taken. -/
  | seeking
  /-- The current branch is the one that is taken. -/
  | showing
  /-- The branch that is taken lies behind. -/
  | past
deriving Repr, DecidableEq

/-- The stage in the next branch, whose condition has some value. -/
def Stage.next : Stage → Bool → Stage
  | seeking, value => if value then showing else seeking
  | _, _ => past

structure Frame where
  stage : Stage
  /-- Whether the current branch is the one behind `else`, which no other branch follows. -/
  last : Bool
deriving Repr, DecidableEq

/-- What has been shown, and the conditionals that are open, the innermost one first. -/
structure Rendering where
  shown : List Char := []
  frames : List Frame := []
deriving Repr, DecidableEq

namespace Rendering

/-- Shows a text unless it stands in a branch that is not taken. -/
def put (r : Rendering) (run : List Char) : Rendering :=
  if r.frames.all (·.stage = .showing) then { r with shown := r.shown ++ run } else r

def within (r : Rendering) (frame : Frame) : Rendering :=
  ⟨r.shown, frame :: r.frames⟩

def branch (value last : Bool) : Rendering → Option Rendering
  | ⟨shown, ⟨stage, false⟩ :: outer⟩ => some ⟨shown, ⟨stage.next value, last⟩ :: outer⟩
  | _ => none

def leave : Rendering → Option Rendering
  | ⟨shown, _ :: outer⟩ => some ⟨shown, outer⟩
  | ⟨_, []⟩ => none

def obey (truth : String → Bool) (r : Rendering) : List String → Option Rendering
  | "if" :: test => (test? truth test).map fun value => r.within ⟨Stage.seeking.next value, false⟩
  | "elif" :: test => (test? truth test).bind fun value => r.branch value false
  | ["else"] => r.branch true true
  | ["endif"] => r.leave
  | _ => none

/-- Renders a token. Values are not modelled. -/
def step (truth : String → Bool) (r : Rendering) : Token → Option Rendering
  | .text run => some (r.put run)
  | .tag .comment _ => some r
  | .tag .output _ => none
  | .tag .block inner => r.obey truth (words inner)

def run (truth : String → Bool) (r : Rendering) : List Token → Option Rendering
  | [] => some r
  | t :: tokens => (r.step truth t).bind fun r => r.run truth tokens

end Rendering

/-- What a template shows, given which conditions hold; nothing if it cannot be rendered. -/
def render (truth : String → Bool) (template : List Char) : Option (List Char) :=
  match Rendering.run truth {} (Token.lex template) with
  | some ⟨shown, []⟩ => some shown
  | _ => none

/-- A word that can stand in a tag: it has no blanks, and no brace that could close the tag. -/
def Solid (word : String) : Prop :=
  word.toList ≠ [] ∧ word.toList.all (fun c => !Text.isBlank c && c != '}') = true

instance : DecidablePred Solid := fun _ => inferInstanceAs (Decidable (_ ∧ _))

theorem Solid.char {word : String} (h : Solid word) {c : Char} (hc : c ∈ word.toList) :
    Text.isBlank c = false ∧ c ≠ '}' := by
  simpa using List.all_eq_true.mp h.2 c hc

def spaced (ws : List String) : List Char :=
  ' ' :: ws.flatMap fun word => word.toList ++ [' ']

theorem words_blank_cons {b : Char} (hb : Text.isBlank b = true) (s : List Char) :
    words (b :: s) = words s := by
  have hsplit := List.splitOnP_append_cons [] s hb
  rw [List.nil_append, List.splitOnP_nil] at hsplit
  simp [words, hsplit]

/-- A word ends at the first blank. -/
theorem words_append_blank {word : String} (hword : Solid word) {b : Char}
    (hb : Text.isBlank b = true) (s : List Char) :
    words (word.toList ++ b :: s) = word :: words s := by
  have hsplit := List.splitOnP_append_cons_of_forall_mem (fun c hc => (hword.char hc).1) b hb s
  rw [words, hsplit, List.filter_cons_of_pos (by simpa using hword.1), List.map_cons,
    String.ofList_toList]
  rfl

theorem words_spaced {ws : List String} (h : ∀ word ∈ ws, Solid word) :
    words (spaced ws) = ws := by
  rw [spaced, words_blank_cons (by decide)]
  induction ws with
  | nil => rfl
  | cons word ws ih =>
    rw [List.flatMap_cons, List.append_assoc]
    rw [List.singleton_append, words_append_blank (h word List.mem_cons_self) (by decide),
      ih fun other hother => h other (List.mem_cons_of_mem word hother)]

theorem closes_spaced {ws : List String} (h : ∀ word ∈ ws, Solid word) :
    TagKind.block.Closes (spaced ws) := by
  have hchar : ∀ c ∈ spaced ws, c ≠ '\n' ∧ c ≠ '}' := by
    intro c hc
    rcases List.mem_cons.mp hc with rfl | hc
    · decide
    obtain ⟨word, hword, hc⟩ := List.mem_flatMap.mp hc
    rcases List.mem_append.mp hc with hc | hc
    · obtain ⟨hblank, hbrace⟩ := (h word hword).char hc
      refine ⟨?_, hbrace⟩
      rintro rfl
      cases hblank
    · rw [List.mem_singleton.mp hc]
      decide
  refine ⟨fun hline => (hchar _ hline).1 rfl, fun hmark => ?_⟩
  have hbrace : '}' ∈ spaced ws ++ ['%'] := hmark.subset (by simp [TagKind.mark])
  rcases List.mem_append.mp hbrace with hbrace | hbrace
  · exact (hchar _ hbrace).2 rfl
  · cases List.mem_singleton.mp hbrace

def tagOf (ws : List String) : Token :=
  .tag .block (spaced ws)

namespace Rendering

@[simp] theorem put_nil (r : Rendering) : r.put [] = r := by
  unfold put
  split <;> simp

theorem put_put (r : Rendering) (first second : List Char) :
    (r.put first).put second = r.put (first ++ second) := by
  unfold put
  split <;> simp_all

/-- Inside a conditional a text is shown when it would be shown around it and its branch is
taken. -/
theorem put_within (r : Rendering) (frame : Frame) (run : List Char) :
    (r.within frame).put run =
      (r.put (if frame.stage = .showing then run else [])).within frame := by
  cases houter : r.frames.all (·.stage = .showing) <;> by_cases h : frame.stage = .showing <;>
    simp [put, within, h, houter]

variable {truth : String → Bool}

theorem run_append (r : Rendering) (tokens rest : List Token) :
    r.run truth (tokens ++ rest) = (r.run truth tokens).bind fun r => r.run truth rest := by
  induction tokens generalizing r with
  | nil => rfl
  | cons t tokens ih =>
    rw [List.cons_append, run, run, Option.bind_assoc]
    congr 1
    funext r
    exact ih r

theorem run_consChar (r : Rendering) (c : Char) (tokens : List Token) :
    r.run truth (Token.consChar c tokens) = (r.put [c]).run truth tokens := by
  have hshow (run : List Char) : (r.put [c]).put run = r.put (c :: run) := r.put_put [c] run
  cases tokens with
  | nil => rfl
  | cons t tokens =>
    cases t with
    | text run => simp [Token.consChar, Rendering.run, step, hshow]
    | tag kind inner => simp [Token.consChar, Rendering.run, step]

/-- Whether texts that touch are one text or several makes no difference. -/
theorem run_join (r : Rendering) (tokens : List Token) :
    r.run truth (Token.join tokens) = r.run truth tokens := by
  have htext (r : Rendering) (run : List Char) (tokens : List Token) :
      r.run truth (Token.consText run tokens) = (r.put run).run truth tokens := by
    induction run generalizing r with
    | nil => rw [put_nil]; rfl
    | cons c run ih =>
      rw [Token.consText, List.foldr_cons, run_consChar]
      exact (ih _).trans (by rw [put_put]; rfl)
  induction tokens generalizing r with
  | nil => rfl
  | cons t tokens ih =>
    cases t with
    | text run => rw [Token.join, htext, ih]; rfl
    | tag kind inner =>
      rw [Token.join, run, run]
      congr 1
      funext r
      exact ih r

end Rendering

section
variable {truth : String → Bool} {first second body arms : List Token} {s t : List Char}
variable {test : List String} {value : Bool}

theorem Rendering.step_tagOf (r : Rendering) {ws : List String} (h : ∀ word ∈ ws, Solid word) :
    r.step truth (tagOf ws) = r.obey truth ws := by
  rw [tagOf, step, words_spaced h]

/-- Tokens that show a text and are done, whatever is open around them. -/
structure Shows (truth : String → Bool) (tokens : List Token) (s : List Char) : Prop where
  whole : ∀ token ∈ tokens, token.Whole
  run_eq : ∀ r : Rendering, r.run truth tokens = some (r.put s)

/-- Tokens that, with the closing tag behind them, bring the innermost conditional to its end and
show a text if no branch has been taken before. -/
structure Continues (truth : String → Bool) (tokens : List Token) (s : List Char) : Prop where
  whole : ∀ token ∈ tokens, token.Whole
  run_eq : ∀ (r : Rendering) (stage : Stage),
    (r.within ⟨stage, false⟩).run truth (tokens ++ [tagOf ["endif"]]) =
      some (r.put (if stage = .seeking then s else []))

theorem Shows.nil : Shows truth [] [] where
  whole := by simp
  run_eq r := by rw [r.put_nil]; rfl

theorem Shows.text {run : List Char} (h : '{' ∉ run) : Shows truth [.text run] run where
  whole := by simpa [Token.Whole] using h
  run_eq _ := rfl

theorem Shows.append (hfirst : Shows truth first s) (hsecond : Shows truth second t) :
    Shows truth (first ++ second) (s ++ t) where
  whole token h := (List.mem_append.mp h).elim (hfirst.whole token) (hsecond.whole token)
  run_eq r := by
    rw [Rendering.run_append, hfirst.run_eq, Option.bind_some, hsecond.run_eq, r.put_put]

theorem Rendering.run_endif (r : Rendering) (frame : Frame) :
    (r.within frame).run truth [tagOf ["endif"]] = some r := by
  rw [run, step_tagOf _ (by decide)]
  rfl

/-- Two branches one after the other show what the first shows if its condition holds, and else
what the second shows, unless an earlier branch has been taken. -/
theorem run_branches (hbody : Shows truth body s) (harms : Continues truth arms t)
    (r : Rendering) (stage : Stage) :
    (r.within ⟨stage.next value, false⟩).run truth (body ++ (arms ++ [tagOf ["endif"]])) =
      some (r.put (if stage = .seeking then if value then s else t else [])) := by
  rw [Rendering.run_append, hbody.run_eq, Option.bind_some, Rendering.put_within, harms.run_eq,
    Rendering.put_put]
  cases stage <;> cases value <;> simp [Stage.next]

theorem Continues.nil : Continues truth [] [] where
  whole := by simp
  run_eq r stage := by
    rw [List.nil_append, r.run_endif, ite_self, r.put_nil]

theorem Continues.otherwise (hbody : Shows truth body s) :
    Continues truth (tagOf ["else"] :: body) s where
  whole token h := by
    rcases List.mem_cons.mp h with rfl | h
    · exact closes_spaced (by decide)
    · exact hbody.whole token h
  run_eq r stage := by
    have helse : (r.within ⟨stage, false⟩).step truth (tagOf ["else"]) =
        some (r.within ⟨stage.next true, true⟩) := by
      rw [Rendering.step_tagOf _ (by decide)]
      rfl
    rw [List.cons_append, Rendering.run, helse, Option.bind_some, Rendering.run_append,
      hbody.run_eq, Option.bind_some, Rendering.put_within, Rendering.run_endif]
    cases stage <;> simp [Stage.next]

theorem Continues.elif (hsolid : ∀ word ∈ test, Solid word) (htest : test? truth test = some value)
    (hbody : Shows truth body s) (harms : Continues truth arms t) :
    Continues truth (tagOf ("elif" :: test) :: (body ++ arms)) (if value then s else t) where
  whole token h := by
    rcases List.mem_cons.mp h with rfl | h
    · exact closes_spaced (List.forall_mem_cons.mpr ⟨by decide, hsolid⟩)
    · exact (List.mem_append.mp h).elim (hbody.whole token) (harms.whole token)
  run_eq r stage := by
    have helif : (r.within ⟨stage, false⟩).step truth (tagOf ("elif" :: test)) =
        some (r.within ⟨stage.next value, false⟩) := by
      rw [Rendering.step_tagOf _ (List.forall_mem_cons.mpr ⟨by decide, hsolid⟩)]
      simp [Rendering.obey, htest, Rendering.branch, Rendering.within]
    rw [List.cons_append, Rendering.run, helif, Option.bind_some, List.append_assoc,
      run_branches hbody harms]

/-- A conditional shows the branch that is taken. -/
theorem Shows.conditional (hsolid : ∀ word ∈ test, Solid word)
    (htest : test? truth test = some value) (hbody : Shows truth body s)
    (harms : Continues truth arms t) :
    Shows truth (tagOf ("if" :: test) :: (body ++ arms ++ [tagOf ["endif"]]))
      (if value then s else t) where
  whole token h := by
    simp only [List.mem_cons, List.mem_append, List.not_mem_nil, or_false] at h
    rcases h with rfl | (h | h) | rfl
    · exact closes_spaced (List.forall_mem_cons.mpr ⟨by decide, hsolid⟩)
    · exact hbody.whole token h
    · exact harms.whole token h
    · exact closes_spaced (by decide)
  run_eq r := by
    have hif : r.step truth (tagOf ("if" :: test)) =
        some (r.within ⟨Stage.seeking.next value, false⟩) := by
      rw [Rendering.step_tagOf _ (List.forall_mem_cons.mpr ⟨by decide, hsolid⟩)]
      simp [Rendering.obey, htest]
    rw [Rendering.run, hif, Option.bind_some, List.append_assoc, run_branches hbody harms,
      if_pos rfl]

/-- A template that shows a text is rendered as that text. -/
theorem Shows.render_eq (h : Shows truth body s) :
    render truth (body.flatMap Token.lexeme) = some s := by
  rw [render, Token.lex_flatMap_lexeme h.whole, Rendering.run_join, h.run_eq]
  rfl

end

theorem token_holds (name : String) : (Piece.ifOpen (.holds name)).token = tagOf ["if", name] := by
  simp [Piece.token, Piece.render, Test.render, inside_blockTag, tagOf, spaced]

theorem token_fails (name : String) :
    (Piece.ifOpen (.fails name)).token = tagOf ["if", "not", name] := by
  simp [Piece.token, Piece.render, Test.render, inside_blockTag, tagOf, spaced]

theorem token_elif (name : String) : (Piece.elifOpen name).token = tagOf ["elif", name] := by
  simp [Piece.token, Piece.render, inside_blockTag, tagOf, spaced]

theorem token_else : Piece.elseMark.token = tagOf ["else"] := by
  simp [Piece.token, Piece.render, inside_blockTag, tagOf, spaced]

theorem token_endIf : Piece.endIf.token = tagOf ["endif"] := by
  simp [Piece.token, Piece.render, inside_blockTag, tagOf, spaced]

end Stencil.Django
