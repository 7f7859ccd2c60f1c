import Stencil.Text.Split
import Stencil.Handlebars.Fault

/-!
# Tags

A tag stands between double braces. Four forms are told apart by what follows
the opening braces, and a tilde next to either pair asks for the blanks beyond
it to be dropped. Reading a tag loses nothing: its spelling followed by the
rest is the text it was read from.
-/

namespace Stencil.Handlebars

/-- A tag by its delimiters, with the text between them. -/
inductive Form
  | plain (body : List Char)
  | triple (body : List Char)
  | comment (body : List Char)
  | dashed (body : List Char)
deriving Repr, DecidableEq

/-- A tag and its two tildes. -/
structure Tag where
  trimLeft : Bool
  form : Form
  trimRight : Bool
deriving Repr, DecidableEq

namespace Tag

def braces : List Char := ['{', '{']

def closingBraces : List Char := ['}', '}']

def tilde (present : Bool) : List Char :=
  if present then ['~'] else []

/-- What stands between the left tilde and the end of the tag. -/
def formLexeme (trimRight : Bool) : Form → List Char
  | .plain body => body ++ tilde trimRight ++ closingBraces
  | .triple body => '{' :: body ++ '}' :: tilde trimRight ++ closingBraces
  | .comment body => '!' :: body ++ tilde trimRight ++ closingBraces
  | .dashed body => '!' :: '-' :: '-' :: body ++ '-' :: '-' :: tilde trimRight ++ closingBraces

def lexeme (tag : Tag) : List Char :=
  braces ++ tilde tag.trimLeft ++ formLexeme tag.trimRight tag.form

def dropTilde : List Char → Bool × List Char
  | '~' :: s => (true, s)
  | s => (false, s)

theorem dropTilde_append (s : List Char) : tilde (dropTilde s).1 ++ (dropTilde s).2 = s := by
  unfold dropTilde
  split <;> simp [tilde]

def dropTildeEnd (s : List Char) : List Char × Bool :=
  if s.getLast? = some '~' then (s.dropLast, true) else (s, false)

theorem dropTildeEnd_append (s : List Char) :
    (dropTildeEnd s).1 ++ tilde (dropTildeEnd s).2 = s := by
  unfold dropTildeEnd
  split
  · next h =>
    obtain ⟨t, rfl⟩ := List.getLast?_eq_some_iff.1 h
    simp [tilde]
  · simp [tilde]

/-- A dashed comment ends at the first pair of dashes before closing braces; the flag tells
whether a tilde stands between them. -/
def cutDashes : List Char → Option (List Char × Bool × List Char)
  | [] => none
  | c :: s =>
    match Text.behind? ['-', '-', '}', '}'] (c :: s) with
    | some rest => some ([], false, rest)
    | none =>
      match Text.behind? ['-', '-', '~', '}', '}'] (c :: s) with
      | some rest => some ([], true, rest)
      | none => (cutDashes s).map fun (body, found) => (c :: body, found)

theorem append_of_cutDashes {s body rest : List Char} {right : Bool}
    (h : cutDashes s = some (body, right, rest)) :
    s = body ++ '-' :: '-' :: tilde right ++ closingBraces ++ rest := by
  induction s generalizing body with
  | nil => simp [cutDashes] at h
  | cons c s ih =>
    rw [cutDashes] at h
    split at h
    · next r hp =>
      simp only [Option.some.injEq, Prod.mk.injEq] at h
      obtain ⟨rfl, rfl, rfl⟩ := h
      simpa [tilde, closingBraces] using Text.eq_append_of_behind? hp
    · split at h
      · next r hp =>
        simp only [Option.some.injEq, Prod.mk.injEq] at h
        obtain ⟨rfl, rfl, rfl⟩ := h
        simpa [tilde, closingBraces] using Text.eq_append_of_behind? hp
      · simp only [Option.map_eq_some_iff] at h
        obtain ⟨⟨b, r, t⟩, hcut, hb⟩ := h
        simp only [Prod.mk.injEq] at hb
        obtain ⟨rfl, rfl, rfl⟩ := hb
        simpa using ih hcut

/-- The form of a tag, its right tilde and what follows it. -/
def readForm : List Char → Except Fault (Form × Bool × List Char)
  | '{' :: '{' :: _ => .error .rawBlock
  | '!' :: '-' :: '-' :: s =>
    match cutDashes s with
    | none => .error .unclosedComment
    | some (body, right, rest) => .ok (.dashed body, right, rest)
  | '!' :: s =>
    match Text.cut closingBraces s with
    | none => .error .unclosedComment
    | some (body, rest) => .ok (.comment (dropTildeEnd body).1, (dropTildeEnd body).2, rest)
  | '{' :: s =>
    match Text.cutOutside ['}'] .outside s with
    | none => .error .unclosedTag
    | some (body, after) =>
      match Text.behind? closingBraces (dropTilde after).2 with
      | none => .error .expectedTripleClose
      | some rest => .ok (.triple body, (dropTilde after).1, rest)
  | s =>
    match Text.cutOutside closingBraces .outside s with
    | none => .error .unclosedTag
    | some (body, rest) => .ok (.plain (dropTildeEnd body).1, (dropTildeEnd body).2, rest)

theorem append_of_readForm {s rest : List Char} {form : Form} {right : Bool}
    (h : readForm s = .ok (form, right, rest)) : s = formLexeme right form ++ rest := by
  unfold readForm at h
  split at h
  · cases h
  · split at h
    · cases h
    · next hcut =>
      cases h
      simpa [formLexeme] using append_of_cutDashes hcut
  · split at h
    · cases h
    · next body _ hcut =>
      cases h
      rw [Text.append_of_cut hcut]
      conv => lhs; rw [← dropTildeEnd_append body]
      simp [formLexeme]
  · split at h
    · cases h
    · next body after hcut =>
      split at h
      · cases h
      · next hp =>
        cases h
        rw [Text.append_of_cutOutside hcut]
        conv => lhs; rw [← dropTilde_append after, Text.eq_append_of_behind? hp]
        simp [formLexeme]
  · split at h
    · cases h
    · next body _ hcut =>
      cases h
      rw [Text.append_of_cutOutside hcut]
      conv => lhs; rw [← dropTildeEnd_append body]
      simp [formLexeme]

def read (s : List Char) : Except Fault (Tag × List Char) :=
  match readForm (dropTilde s).2 with
  | .error fault => .error fault
  | .ok (form, right, rest) => .ok (⟨(dropTilde s).1, form, right⟩, rest)

/-- A tag's spelling followed by the rest is the text it was read from. -/
theorem append_of_read {s rest : List Char} {tag : Tag} (h : read s = .ok (tag, rest)) :
    braces ++ s = tag.lexeme ++ rest := by
  unfold read at h
  split at h
  · cases h
  · next hread =>
    cases h
    conv => lhs; rw [← dropTilde_append s, append_of_readForm hread]
    simp [lexeme]

theorem length_le_of_read {s rest : List Char} {tag : Tag} (h : read s = .ok (tag, rest)) :
    rest.length ≤ s.length := by
  have := congrArg List.length (append_of_read h)
  simp only [lexeme, List.length_append] at this
  omega

end Tag
end Stencil.Handlebars
