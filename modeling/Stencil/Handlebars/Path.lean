import Stencil.Text.Split

/-!
# References

A reference such as `../item.name`, `this` or `@key` is a number of hops out of
the enclosing scopes followed by the names of the members to visit. Slashes
separate segments, dots separate names within a segment, and `this` stands for
the current value as long as no member has been named.
-/

namespace Stencil.Handlebars

/-- A reference with the text it was read from. -/
structure Path where
  /-- The reference as it stands in the template. -/
  spelling : String
  /-- The number of scopes to leave. -/
  depth : Nat := 0
  /-- The members to visit, outermost first. -/
  parts : List String := []
  /-- Whether it names a loop variable, which is written with a leading at sign. -/
  data : Bool := false
deriving Repr, DecidableEq, Inhabited

namespace Path

/-- The part of a reference behind its at sign. -/
def withoutSign : List Char → List Char
  | '@' :: s => s
  | s => s

theorem withoutSign_of_head? {s : List Char} (h : s.head? ≠ some '@') : withoutSign s = s := by
  unfold withoutSign
  split
  · exact absurd rfl h
  · rfl

def segments (s : List Char) : List (List Char) :=
  Text.fields '/' (withoutSign s)

/-- The names between the dots of one segment. -/
def names (segment : List Char) : List String :=
  ((Text.fields '.' segment).filter (· ≠ [])).map String.ofList

/-- Reads a reference; every text is one. -/
def ofText (s : List Char) : Path where
  spelling := String.ofList s
  depth := (segments s).countP (· = ['.', '.'])
  parts := ((segments s).flatMap names).dropWhile (· = "this")
  data := s.head? = some '@'

def parse (s : String) : Path :=
  ofText s.toList

@[simp] theorem parse_spelling (s : String) : (parse s).spelling = s := by
  simp [parse, ofText]

/-- Whether this is the key of the current loop entry. -/
def isKey (p : Path) : Bool :=
  p.spelling = "@key"

/-- Whether this names no member and so stands for the scope's own value. -/
def isCurrent (p : Path) : Bool :=
  p.parts.isEmpty

/-- The members, dotted. -/
def joined (p : Path) : String :=
  ".".intercalate p.parts

end Path
end Stencil.Handlebars
