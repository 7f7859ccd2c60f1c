import Stencil.Text.Blank
import Stencil.Handlebars.Call
import Stencil.Handlebars.Tag

/-!
# Directives

What a tag asks for. A plain tag is sorted by the first character of its
trimmed body, or by the word `else`; the call behind a chained `else` is left
unread here, because the `else` itself comes first.
-/

namespace Stencil.Handlebars

/-- The tag that opens a block, read. -/
structure Opening where
  helper : Path
  args : Arguments
  blockParams : List String
deriving Repr, Inhabited

namespace Opening

/-- Reads the inside of an opening tag; its head has to be a reference. -/
def parse (s : List Char) : Except Fault Opening :=
  match Call.parse s with
  | .error fault => .error fault
  | .ok call =>
    match call.head with
    | .path helper => .ok ⟨helper, call.args, call.blockParams⟩
    | head => .error (.blockNotPath head.asWritten)

end Opening

inductive Directive
  | comment (text : String)
  | mustache (head : Expr) (args : Arguments) (escaped : Bool)
  | embed (name : Expr) (args : Arguments)
  | opening (opening : Opening)
  /-- The rest of the innermost block is its inverse. -/
  | otherwise
  /-- The inverse is one more block, whose opening is still unread. -/
  | chain (opening : List Char)
  | closing (name : String)
deriving Repr, Inhabited

namespace Directive

/-- An interpolation takes a reference or a literal and introduces no names. -/
def ofMustache (s : List Char) (escaped : Bool) : Except Fault Directive :=
  match Call.parse s with
  | .error fault => .error fault
  | .ok call =>
    match call.head with
    | .call .. => .error .interpolatedCall
    | head =>
      if call.blockParams.isEmpty then .ok (mustache head call.args escaped)
      else .error .misplacedBlockParams

def ofOpening : List Char → Except Fault Directive
  | '>' :: _ => .error .blockEmbed
  | '*' :: _ => .error .decorator
  | s => (Opening.parse s).map opening

/-- Names behind `as` are read and dropped here. -/
def ofEmbed (s : List Char) : Except Fault Directive :=
  (Call.parse s).map fun call => embed call.head call.args

/-- The call behind `else` and a blank. -/
def chained? : List Char → Option (List Char)
  | 'e' :: 'l' :: 's' :: 'e' :: c :: s => if Text.isBlank c then some (c :: s) else none
  | _ => none

/-- Sorts a plain tag by its trimmed body. -/
def ofPlain : List Char → Except Fault Directive
  | [] => .error .emptyTag
  | '#' :: s => ofOpening s
  | '/' :: s => .ok (closing (String.ofList (Text.trim s)))
  | '^' :: s => if (Text.trim s).isEmpty then .ok otherwise else .error .inverseSection
  | '*' :: _ => .error .decorator
  | '>' :: s => ofEmbed s
  | '&' :: s => ofMustache s false
  | s =>
    if s = "else".toList then .ok otherwise
    else
      match chained? s with
      | some call => .ok (chain call)
      | none => ofMustache s true

def ofTag (tag : Tag) : Except Fault Directive :=
  match tag.form with
  | .comment body => .ok (comment (String.ofList body))
  | .dashed body => .ok (comment (String.ofList body))
  | .triple body => ofMustache body false
  | .plain body => ofPlain (Text.trim body)

end Directive
end Stencil.Handlebars
