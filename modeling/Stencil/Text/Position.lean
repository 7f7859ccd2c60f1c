/-!
# Positions in a text

Lines and columns count from one. A column counts characters after the last
line feed; carriage returns are ordinary characters. Offsets count the bytes
of the UTF-8 encoding.
-/

namespace Stencil.Text

/-- A place between two characters of a text. -/
structure Position where
  line : Nat
  column : Nat
deriving Repr, DecidableEq

namespace Position

def start : Position := ⟨1, 1⟩

/-- A line feed begins a line, any other character fills one column. -/
def next (p : Position) (c : Char) : Position :=
  if c = '\n' then ⟨p.line + 1, 1⟩ else ⟨p.line, p.column + 1⟩

/-- The place reached after reading `s` from `p`. -/
def after (p : Position) (s : List Char) : Position :=
  s.foldl next p

@[simp] theorem after_nil (p : Position) : p.after [] = p := rfl

@[simp] theorem after_cons (p : Position) (c : Char) (s : List Char) :
    p.after (c :: s) = (p.next c).after s := rfl

@[simp] theorem after_append (p : Position) (s t : List Char) :
    p.after (s ++ t) = (p.after s).after t := by
  simp [after]

/-- Lines are told by the line feeds, and columns by the characters behind the last one. -/
theorem after_start (s : List Char) :
    start.after s = ⟨s.count '\n' + 1, (s.reverse.takeWhile (· ≠ '\n')).length + 1⟩ := by
  rw [← List.reverse_reverse s]
  induction s.reverse with
  | nil => rfl
  | cons c s ih =>
    rw [List.reverse_cons, after_append, ih, after_cons, after_nil, next]
    by_cases hc : c = '\n' <;> simp [hc]

/-- A message about the position, such as `3:14: unclosed tag`. -/
def label (p : Position) (text : String) : String :=
  toString p.line ++ ":" ++ toString p.column ++ ": " ++ text

end Position

/-- The characters before a byte offset: all of them beyond the end, none at an
offset inside a character. -/
def takeBytes : Nat → List Char → Option (List Char)
  | 0, _ => some []
  | _ + 1, [] => some []
  | n + 1, c :: s =>
    if c.utf8Size ≤ n + 1 then (takeBytes (n + 1 - c.utf8Size) s).map (c :: ·) else none

def Position.ofOffset (s : List Char) (offset : Nat) : Option Position :=
  (takeBytes offset s).map Position.start.after

end Stencil.Text
