import Stencil.Text.Blank
import Stencil.Text.Split

/-!
# Tokens

The inside of a tag is cut into words, quoted strings and four marks by a
machine that reads one character at a time. Blanks separate tokens and are
dropped. Inside a string only the opening quote can be protected by a
backslash; every other backslash stands for itself.
-/

namespace Stencil.Handlebars

inductive Token
  | word (text : List Char)
  | string (value : List Char)
  | opening
  | closing
  | equals
  | pipe
deriving Repr, DecidableEq

namespace Token

/-- The marks that are tokens of their own. -/
def mark? (c : Char) : Option Token :=
  if c = '(' then some opening
  else if c = ')' then some closing
  else if c = '=' then some equals
  else if c = '|' then some pipe
  else none

/-- What a word cannot contain. -/
def endsWord (c : Char) : Bool :=
  Text.isBlank c || (mark? c).isSome || Text.isQuote c

/-- What the reader is in the middle of; texts are kept last character first. -/
inductive Mode
  | gap
  | word (read : List Char)
  | quoted (quote : Char) (read : List Char)
  | backslash (quote : Char) (read : List Char)
deriving Repr, DecidableEq

namespace Mode

/-- One character read between tokens. -/
def fromGap (c : Char) : List Token × Mode :=
  if Text.isBlank c then ([], gap)
  else
    match mark? c with
    | some token => ([token], gap)
    | none => if Text.isQuote c then ([], quoted c []) else ([], word [c])

/-- The tokens that one more character completes, and what follows. -/
def next : Mode → Char → List Token × Mode
  | gap, c => fromGap c
  | word read, c =>
    if endsWord c then
      let (tokens, mode) := fromGap c
      (.word read.reverse :: tokens, mode)
    else ([], word (c :: read))
  | quoted quote read, c =>
    if c = '\\' then ([], backslash quote read)
    else if c = quote then ([.string read.reverse], gap)
    else ([], quoted quote (c :: read))
  | backslash quote read, c =>
    if c = quote then ([], quoted quote (c :: read))
    else if c = '\\' then ([], backslash quote (c :: read))
    else ([], quoted quote (c :: '\\' :: read))

/-- The tokens that the end of the tag completes; a string cannot end there. -/
def finish : Mode → Option (List Token)
  | gap => some []
  | word read => some [.word read.reverse]
  | quoted .. => none
  | backslash .. => none

/-- Where the reader stands with respect to quoted strings. -/
def quoting : Mode → Text.Quoting
  | gap => .outside
  | word _ => .outside
  | quoted quote _ => .inside quote
  | backslash quote _ => .backslash quote

end Mode

/-- The tokens of `s`, given what the reader is in the middle of. -/
def lexFrom : Mode → List Char → Option (List Token)
  | mode, [] => mode.finish
  | mode, c :: s => (lexFrom (mode.next c).2 s).map ((mode.next c).1 ++ ·)

/-- The tokens of the inside of a tag, unless a string is left open. -/
def lex (s : List Char) : Option (List Token) :=
  lexFrom .gap s

end Token
end Stencil.Handlebars
