import Stencil.Text.Position

/-!
# Faults in a template

Every way in which a template can fail to be read, with the words that report
it. A syntax error is a fault at the position of the tag it was found in; a
block that is never closed is reported at its opening tag.
-/

namespace Stencil.Handlebars

inductive Fault
  -- the delimiters of a tag
  | rawBlock
  | unclosedComment
  | unclosedTag
  | expectedTripleClose
  -- the kind of a tag
  | emptyTag
  | blockEmbed
  | decorator
  | inverseSection
  -- the call inside a tag
  | unterminatedString
  | unexpectedEnd
  | unterminatedCall
  | unexpectedClosing
  | unexpectedEquals
  | unexpectedPipe
  | positionalAfterNamed
  | malformedBlockParams
  | inputAfterBlockParams
  | calleeNotPath (written : String)
  | interpolatedCall
  | misplacedBlockParams
  -- the nesting of blocks
  | blockNotPath (written : String)
  | tooDeep (limit : Nat)
  | strayElse
  | duplicateElse (block : String)
  | strayClose (name : String)
  | mismatchedClose (block name : String)
  | unclosedBlock (block : String)
deriving Repr, DecidableEq

namespace Fault

/-- A tag as it is quoted in messages. -/
private def quotedTag (inner : String) : String :=
  "`\x7b\x7b" ++ inner ++ "\x7d\x7d`"

def message : Fault → String
  | rawBlock => "raw blocks are not supported"
  | unclosedComment => "unclosed comment"
  | unclosedTag => "unclosed tag"
  | expectedTripleClose => "expected `\x7d\x7d\x7d`"
  | emptyTag => "empty tag"
  | blockEmbed => "partial blocks are not supported"
  | decorator => "decorators are not supported"
  | inverseSection => "inverse sections are not supported"
  | unterminatedString => "unterminated string literal"
  | unexpectedEnd => "unexpected end of tag"
  | unterminatedCall => "unterminated sub-expression"
  | unexpectedClosing => "unexpected `)`"
  | unexpectedEquals => "unexpected `=`"
  | unexpectedPipe => "unexpected `|`"
  | positionalAfterNamed => "positional argument after hash argument"
  | malformedBlockParams => "malformed block parameters"
  | inputAfterBlockParams => "unexpected input after block parameters"
  | calleeNotPath written => "sub-expression helper must be a path, found `" ++ written ++ "`"
  | interpolatedCall => "a sub-expression cannot be interpolated directly"
  | misplacedBlockParams => "block parameters are only allowed on blocks"
  | blockNotPath written => "block helper name must be a path, found `" ++ written ++ "`"
  | tooDeep limit => "blocks nested deeper than " ++ toString limit
  | strayElse => quotedTag "else" ++ " outside of a block"
  | duplicateElse block => "duplicate " ++ quotedTag "else" ++ " in " ++ quotedTag ("#" ++ block)
  | strayClose name => "unexpected closing tag " ++ quotedTag ("/" ++ name)
  | mismatchedClose block name =>
    quotedTag ("#" ++ block) ++ " closed by " ++ quotedTag ("/" ++ name)
  | unclosedBlock block => "unclosed block " ++ quotedTag ("#" ++ block)

end Fault

/-- A fault and the place of the tag it was found in. -/
structure SyntaxError where
  position : Text.Position
  fault : Fault
deriving Repr, DecidableEq

namespace SyntaxError

def message (e : SyntaxError) : String :=
  e.position.label e.fault.message

end SyntaxError
end Stencil.Handlebars
