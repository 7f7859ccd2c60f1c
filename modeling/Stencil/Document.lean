import Stencil.Handlebars.Parse
import Stencil.Conversion.Program

/-!
# Converted documents

The Django text of a whole template with what is to be said about it. Every
document is converted on its own, outside all scopes.
-/

namespace Stencil

open Handlebars (Program SyntaxError)
open Conversion (Refusal)

structure Document where
  output : String
  diagnostics : List Diagnostic
  /-- The number of conditional tags in the output. -/
  conditionals : Nat
deriving Repr, DecidableEq

namespace Document

inductive Error
  /-- The template cannot be read. -/
  | unreadable (error : SyntaxError)
  /-- The program cannot be converted. -/
  | refused (refusal : Refusal)
deriving Repr, DecidableEq

namespace Error

def message : Error → String
  | unreadable e => "Parse error: " ++ e.message
  | refused r => r.message

end Error

def ofProgram (o : Options) (p : Program) : Except Refusal Document :=
  let step := Conversion.program o p [] false
  step.result.map fun _ =>
    { output := Django.Fragment.render step.log.fragments.flatten
      diagnostics := step.log.diagnostics
      conditionals := step.log.conditionals }

/-- The document of a template that has been read, or not. -/
def ofParsed (o : Options) : Except SyntaxError Program → Except Error Document
  | .error e => .error (.unreadable e)
  | .ok p => (ofProgram o p).mapError .refused

def ofSource (o : Options) (source : String) : Except Error Document :=
  ofParsed o (Program.parse source)

/-- An output with its template appended as a comment. -/
def withSourceComment (output source : String) : String :=
  output ++ "\n\n\x7b% comment %\x7d\nOriginal handlebar template:\n\n" ++ source ++
    "\n\x7b% endcomment %\x7d"

/-- The text that is handed out for a document. -/
def text (o : Options) (source : String) (d : Document) : String :=
  if o.sourceComment then withSourceComment d.output source else d.output

end Document
end Stencil
