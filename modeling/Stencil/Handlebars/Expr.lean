import Stencil.Handlebars.Path

/-!
# Expressions

An expression is a reference, a literal or a parenthesised helper call with
positional and named arguments. Words are classified by spelling alone: the
four reserved words, decimal numbers, and references for all the rest.
-/

namespace Stencil.Handlebars

/-- What may stand as the head or an argument of a tag. -/
inductive Expr
  | path (path : Path)
  | call (helper : Path) (params : List Expr) (hash : List (String × Expr))
  | string (value : String)
  | number (digits : String)
  | boolean (value : Bool)
  | undefined
  | null
deriving Repr, Inhabited

/-- The arguments of a tag: positional ones, then named ones. -/
structure Arguments where
  params : List Expr := []
  hash : List (String × Expr) := []
deriving Repr, Inhabited

namespace Arguments

def isEmpty (args : Arguments) : Bool :=
  args.params.isEmpty && args.hash.isEmpty

end Arguments

namespace Expr

/-- Whether the expression is spelled out rather than looked up or computed. -/
def isLiteral : Expr → Bool
  | path _ => false
  | call .. => false
  | _ => true

def boolText (b : Bool) : String :=
  if b then "true" else "false"

mutual

/-- The expression the way a template spells it; quotes inside strings are not protected. -/
def asWritten : Expr → String
  | path p => p.spelling
  | call helper params hash =>
    "(" ++ helper.spelling ++ paramsAsWritten params ++ hashAsWritten hash ++ ")"
  | string s => "\"" ++ s ++ "\""
  | number n => n
  | boolean b => boolText b
  | undefined => "undefined"
  | null => "null"

def paramsAsWritten : List Expr → String
  | [] => ""
  | e :: params => " " ++ asWritten e ++ paramsAsWritten params

def hashAsWritten : List (String × Expr) → String
  | [] => ""
  | (key, e) :: hash => " " ++ key ++ "=" ++ asWritten e ++ hashAsWritten hash

end

/-- The bare value of a literal: a string loses its quotes. -/
def literalText : Expr → String
  | string s => s
  | e => asWritten e

/-- At least one digit and nothing else. -/
def isDigits (s : List Char) : Bool :=
  !s.isEmpty && s.all Char.isDigit

/-- Digits with at most one point between them, perhaps behind a minus sign. -/
def isNumber (word : List Char) : Bool :=
  let unsigned := match word with
    | '-' :: s => s
    | s => s
  match Text.cut ['.'] unsigned with
  | some (whole, fraction) => isDigits whole && isDigits fraction
  | none => isDigits unsigned

def ofWord (word : List Char) : Expr :=
  if word = "true".toList then boolean true
  else if word = "false".toList then boolean false
  else if word = "undefined".toList then undefined
  else if word = "null".toList then null
  else if isNumber word then number (String.ofList word)
  else path (.ofText word)

end Expr
end Stencil.Handlebars
