import Stencil.Options
import Stencil.Conversion.Reference

/-!
# Icon tags

The icon helper becomes a tag of its own. Its attributes are texts: a string,
or classes put together with `add`, of which only the string parts are kept.
-/

namespace Stencil.Conversion

open Handlebars (Expr Arguments)
open Django (Piece)

mutual

/-- The string parts of nested `add` calls, each behind the class prefix; a lone space is
only a separator. -/
def classes (classPrefix : String) : Expr → List String
  | .string s => if s = " " then [] else [classPrefix ++ s]
  | .call _ params _ => classesOfAll classPrefix params
  | _ => []

def classesOfAll (classPrefix : String) : List Expr → List String
  | [] => []
  | e :: rest => classes classPrefix e ++ classesOfAll classPrefix rest

end

def attributeText? (classPrefix : String) : Expr → Option String
  | .string s => some s
  | .call helper params _ =>
    if helper.spelling = "add" then
      match params with
      | .path _ :: .string s :: _ => some (classPrefix ++ s)
      | .call .. :: .call .. :: _ => some (" ".intercalate (classesOfAll classPrefix params))
      | _ => none
    else none
  | _ => none

/-- The text of an attribute; any other shape is noted and shown as a question mark. -/
def attributeText (o : Options) (key : String) (value : Expr) : Step String :=
  match attributeText? o.iconClassPrefix value with
  | some text => pure text
  | none => do
    .report (.iconArgument key value.asWritten)
    pure "?"

/-- An attribute's name in the tag, where dashes are not allowed. -/
def attributeName (key : String) : String :=
  String.ofList (key.toList.map fun c => if c = '-' then '_' else c)

def iconArguments (scopes : List Scope) : List Expr → Step (List String)
  | [] => pure []
  | e :: rest => do
    let text ← argument scopes e
    let texts ← iconArguments scopes rest
    pure (text :: texts)

def iconAttributes (o : Options) : List (String × Expr) → Step (List (String × String))
  | [] => pure []
  | (key, value) :: rest => do
    let text ← attributeText o key value
    let texts ← iconAttributes o rest
    pure ((attributeName key, text) :: texts)

def icon (o : Options) (scopes : List Scope) (args : Arguments) : Step Unit := do
  let arguments ← iconArguments scopes args.params
  let attributes ← iconAttributes o args.hash
  .emit (.icon arguments attributes)

end Stencil.Conversion
