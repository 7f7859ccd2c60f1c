/-!
# JSON documents

Values with their fields in writing order, and the indented form in which they
are printed: two spaces a level, one item a line, empty lists closed at once.
Quotes, backslashes and control characters are the only escaped characters.
-/

namespace Stencil

inductive Json
  | null
  | bool (value : Bool)
  | nat (value : Nat)
  | string (value : String)
  | array (items : List Json)
  | object (fields : List (String × Json))
deriving Repr, Inhabited

namespace Json

private def hexDigit (n : Nat) : Char :=
  if n < 10 then Char.ofNat (0x30 + n) else Char.ofNat (0x57 + n)

/-- A character as it stands inside a quoted string. -/
def escapeChar (c : Char) : List Char :=
  if c = '"' then ['\\', '"']
  else if c = '\\' then ['\\', '\\']
  else if c = '\x08' then ['\\', 'b']
  else if c = '\x0c' then ['\\', 'f']
  else if c = '\n' then ['\\', 'n']
  else if c = '\r' then ['\\', 'r']
  else if c = '\t' then ['\\', 't']
  else if c.toNat < 0x20 then
    ['\\', 'u', '0', '0', hexDigit (c.toNat / 16), hexDigit (c.toNat % 16)]
  else [c]

def quote (s : String) : String :=
  "\"" ++ String.ofList (s.toList.flatMap escapeChar) ++ "\""

def indent (level : Nat) : String :=
  "\n" ++ String.ofList (List.replicate (2 * level) ' ')

mutual

/-- The indented form of a value that stands at a level of nesting. -/
def prettyAt (level : Nat) : Json → String
  | null => "null"
  | bool b => if b then "true" else "false"
  | nat n => toString n
  | string s => quote s
  | array [] => "[]"
  | array (item :: items) =>
    "[" ++ indent (level + 1) ++ prettyAt (level + 1) item ++ prettyItems (level + 1) items ++
      indent level ++ "]"
  | object [] => "\x7b\x7d"
  | object ((key, value) :: fields) =>
    "\x7b" ++ indent (level + 1) ++ quote key ++ ": " ++ prettyAt (level + 1) value ++
      prettyFields (level + 1) fields ++ indent level ++ "\x7d"

/-- Further items of a list, each on a line of its own. -/
def prettyItems (level : Nat) : List Json → String
  | [] => ""
  | item :: items => "," ++ indent level ++ prettyAt level item ++ prettyItems level items

def prettyFields (level : Nat) : List (String × Json) → String
  | [] => ""
  | (key, value) :: fields =>
    "," ++ indent level ++ quote key ++ ": " ++ prettyAt level value ++ prettyFields level fields

end

def pretty (j : Json) : String :=
  prettyAt 0 j

end Json
end Stencil
