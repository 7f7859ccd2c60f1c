import Stencil.Handlebars.Token
import Stencil.Handlebars.Expr
import Stencil.Handlebars.Fault

/-!
# Calls

The inside of a tag is a call: a head, positional arguments, named arguments
and, at the very end of a block's tag, the names that the block introduces.
Parenthesised calls nest. The reader keeps one draft for each call that is
still open and treats every token once.
-/

namespace Stencil.Handlebars

/-- A head with its arguments and the names behind `as`. -/
structure Call where
  head : Expr
  args : Arguments := {}
  blockParams : List String := []
deriving Repr, Inhabited

/-- A call as far as it has been read. -/
inductive Draft
  /-- Nothing has been read. -/
  | fresh
  /-- A head and complete arguments. -/
  | ready (head : Expr) (args : Arguments)
  /-- The last named argument waits for its value. -/
  | keyed (head : Expr) (args : Arguments) (key : String)
deriving Repr, Inhabited

namespace Draft

/-- Puts an expression where the draft wants the next one. -/
def give : Draft → Expr → Draft
  | fresh, e => ready e {}
  | ready head args, e => ready head { args with params := args.params ++ [e] }
  | keyed head args key, e => ready head { args with hash := args.hash ++ [(key, e)] }

/-- Whether the next expression would be a positional argument behind a named one. -/
def refuses : Draft → Bool
  | ready _ args => !args.hash.isEmpty
  | _ => false

end Draft

namespace Call

/-- The names between two bars, which end the tag. -/
def names : List Token → Except Fault (List String)
  | .word name :: tokens => (names tokens).map (String.ofList name :: ·)
  | [.pipe] => .ok []
  | .pipe :: _ => .error .inputAfterBlockParams
  | _ => .error .malformedBlockParams

/-- What the end of the tag makes of the drafts. -/
def finish : Draft → List Draft → Except Fault Call
  | .ready head args, [] => .ok { head, args }
  | .ready .., _ :: _ => .error .unterminatedCall
  | _, _ => .error .unexpectedEnd

/-- Reads on from a draft, under the drafts of the calls around it. -/
def resume : Draft → List Draft → List Token → Except Fault Call
  | draft, outer, [] => finish draft outer
  | draft, outer, .opening :: tokens =>
    if draft.refuses then .error .positionalAfterNamed
    else resume .fresh (draft :: outer) tokens
  | draft, outer, .closing :: tokens =>
    match draft, outer with
    | .ready (.path helper) args, above :: outer =>
      resume (above.give (.call helper args.params args.hash)) outer tokens
    | .ready head _, _ :: _ => .error (.calleeNotPath head.asWritten)
    | _, _ => .error .unexpectedClosing
  | _, _, .equals :: _ => .error .unexpectedEquals
  | _, _, .pipe :: _ => .error .unexpectedPipe
  | draft, outer, .string value :: tokens =>
    if draft.refuses then .error .positionalAfterNamed
    else resume (draft.give (.string (String.ofList value))) outer tokens
  | .ready head args, outer, .word key :: .equals :: tokens =>
    resume (.keyed head args (String.ofList key)) outer tokens
  | draft, outer, .word word :: tokens =>
    match draft, outer, word, tokens with
    | .ready head args, [], ['a', 's'], .pipe :: tokens =>
      (names tokens).map fun blockParams => { head, args, blockParams }
    | _, _, _, _ =>
      if draft.refuses then .error .positionalAfterNamed
      else resume (draft.give (.ofWord word)) outer tokens

def ofTokens (tokens : List Token) : Except Fault Call :=
  resume .fresh [] tokens

/-- Reads the inside of a tag. -/
def parse (s : List Char) : Except Fault Call :=
  match Token.lex s with
  | some tokens => ofTokens tokens
  | none => .error .unterminatedString

end Call
end Stencil.Handlebars
