import Stencil.Dictionary
import Stencil.Handlebars.Path

/-!
# Scopes

A block that introduces names opens a scope, and references are resolved in
the scopes around them. The outermost scope, the root, introduces nothing and
is left out of the lists here, which have the innermost scope first. A
reference that leaves more scopes than there are stands for nothing.
-/

namespace Stencil

open Handlebars (Path)

/-- The names that one block introduces. -/
structure Scope where
  names : List String := []
  /-- Dotted names that are written differently inside the scope. -/
  replacements : Option (Dictionary String String) := none
deriving Repr, DecidableEq, Inhabited

namespace Scope

def value? (s : Scope) : Option String :=
  s.names[0]?

def key? (s : Scope) : Option String :=
  s.names[1]?

end Scope

/-- What a loop runs over: values alone, or keys with values. -/
inductive Style
  | values
  | entries
deriving Repr, DecidableEq

structure Merged where
  names : List String := []
  replacements : Dictionary String String := {}
deriving Repr, DecidableEq, Inhabited

namespace Merged

/-- Adds a scope further in, whose replacements take precedence. -/
def add (m : Merged) (s : Scope) : Merged where
  names := s.names.foldl (fun seen x => if x ∈ seen then seen else seen ++ [x]) m.names
  replacements := match s.replacements with
    | some more => m.replacements.putAll more
    | none => m.replacements

/-- The names in the order of their code points. -/
def sortedNames (m : Merged) : List String :=
  m.names.mergeSort fun a b => !(decide (b < a))

end Merged

/-- Written for a reference that stands for nothing. -/
def unresolved : String := "???"

/-- The text that a reference becomes, and the depth of the scope that it asked for a key
without a name. -/
structure Resolution where
  text : String
  mark : Option Nat := none
deriving Repr, DecidableEq

namespace Scopes

/-- What the scopes introduce together, merged from the outermost inwards. -/
def merge (scopes : List Scope) : Merged :=
  scopes.reverse.foldl Merged.add {}

/-- What the outermost `depth` scopes introduce together. -/
def collect (scopes : List Scope) (depth : Nat) : Merged :=
  merge (scopes.drop (scopes.length - depth))

/-- A member named in `scope`, which lies inside `outer`. A name that some scope introduces
stands for itself, any other is a member of the scope's own value. -/
def member (scope : Scope) (outer : List Scope) (first dotted : String) : String :=
  let seen := merge (scope :: outer)
  if first ∈ seen.names then (seen.replacements.get? dotted).getD dotted
  else
    match scope.value? with
    | some value => value ++ "." ++ dotted
    | none => unresolved

def resolve (scopes : List Scope) (path : Path) : Resolution :=
  if scopes.length < path.depth then ⟨unresolved, none⟩
  else
    match scopes.drop path.depth with
    | [] => ⟨path.joined, none⟩
    | scope :: outer =>
      match path.parts with
      | [] => ⟨scope.value?.getD unresolved, none⟩
      | first :: _ =>
        if path.isKey then
          match scope.key? with
          | some key => ⟨key, none⟩
          | none => ⟨"key", some (outer.length + 1)⟩
        else ⟨member scope outer first path.joined, none⟩

end Scopes
end Stencil
