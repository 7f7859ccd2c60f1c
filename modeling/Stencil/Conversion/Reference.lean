import Stencil.Handlebars.Expr
import Stencil.Conversion.Log

/-!
# References and conditions

A reference becomes the name of a Django variable. The three loop variables
have counterparts of their own; everything else is looked up in the scopes.
-/

namespace Stencil.Conversion

open Handlebars (Path Expr)

def loopVariable? (path : Path) : Option String :=
  if path.data then
    if path.spelling = "@index" then some "forloop.counter0"
    else if path.spelling = "@first" then some "forloop.first"
    else if path.spelling = "@last" then some "forloop.last"
    else none
  else none

def reference (scopes : List Scope) (path : Path) : Step String :=
  match loopVariable? path with
  | some name => pure name
  | none => .resolve scopes path

/-- A reference is resolved, a written value stays as it is. -/
def argument (scopes : List Scope) : Expr → Step String
  | .path path => reference scopes path
  | e => pure e.asWritten

def argument? (scopes : List Scope) : Option Expr → Step String
  | some e => argument scopes e
  | none => pure unresolved

/-- An operand or operator of a condition: strings lose their quotes. -/
def operand (scopes : List Scope) : Expr → Step String
  | .path path => reference scopes path
  | e => pure e.literalText

/-- The words of a spelled-out condition. -/
def operands (scopes : List Scope) : List Expr → Step (List String)
  | [] => pure []
  | e :: rest => do
    let word ← operand scopes e
    let words ← operands scopes rest
    pure (word :: words)

/-- The expression as it is shown in a diagnostic, if there is one. -/
def written? (e : Option Expr) : String :=
  (e.map Expr.asWritten).getD ""

/-- A condition that has no counterpart. -/
def unknownCondition (e : Option Expr) : Step String := do
  .report (.unknownCondition (written? e))
  pure unresolved

def condition (scopes : List Scope) : Option Expr → Step String
  | some (.path path) => reference scopes path
  | some (.call helper params hash) =>
    if helper.spelling = "condition" then do
      let words ← operands scopes params
      pure (" ".intercalate words)
    else unknownCondition (some (.call helper params hash))
  | some literal => pure literal.literalText
  | none => unknownCondition none

end Stencil.Conversion
