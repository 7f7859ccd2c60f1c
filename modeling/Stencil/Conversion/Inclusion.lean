import Stencil.Options
import Stencil.Conversion.Reference

/-!
# Includes

A partial becomes an include of the converted file. An include can add named
variables but not replace the context, so a context handed to a partial is
refused, or noted and replaced by a binding that cannot work.
-/

namespace Stencil.Conversion

open Handlebars (Expr Arguments)

def inQuotes (s : String) : String :=
  "\"" ++ s ++ "\""

/-- A partial whose name has no counterpart. -/
def computedName (name : Expr) : Step String := do
  .report (.computedPartial name.asWritten)
  pure unresolved

/-- The file that an include names: the source extension gives way to the target extension.
A looked-up name is taken from the current scope. -/
def inclusionName (o : Options) (scopes : List Scope) (name : Expr) : Step String :=
  match name with
  | .string s =>
    pure (inQuotes (String.ofList (Text.replaceFirst ('.' :: o.sourceExtension.toList)
      ('.' :: o.targetExtension.toList) s.toList)))
  | .path path =>
    pure (inQuotes ("/".intercalate (path.parts.filter (· ≠ o.sourceExtension)) ++ "." ++
      o.targetExtension))
  | .call helper params _ =>
    if helper.spelling = "lookup" then
      match params with
      | _ :: .path path :: _ => reference scopes path
      | _ :: .call .. :: _ => computedName name
      | _ :: literal :: _ => pure literal.literalText
      | _ => computedName name
    else computedName name
  | _ => computedName name

def bindingValue? (scopes : List Scope) : Expr → Option (Step String)
  | .path path => some (reference scopes path)
  | .string s => some (pure (inQuotes s))
  | .number n => some (pure n)
  | .boolean b => some (pure (Expr.boolText b))
  | _ => none

/-- The variables that an include adds; the others are noted and dropped. -/
def bindings (scopes : List Scope) : List (String × Expr) → Step (List (String × String))
  | [] => pure []
  | (key, e) :: rest =>
    match bindingValue? scopes e with
    | some value => do
      let value ← value
      let more ← bindings scopes rest
      pure ((key, value) :: more)
    | none => do
      .report (.droppedBinding key e.asWritten)
      bindings scopes rest

/-- The binding that stands for a context, unless contexts are refused. -/
def contextBinding (o : Options) (scopes : List Scope) (name : Expr) :
    List Expr → Step (List (String × String))
  | [] => pure []
  | e :: _ => do
    let context ← argument scopes e
    if o.strictPartials then .refuse (.contextPassed name.asWritten context)
    else do
      .report (.contextPassed context name.asWritten)
      pure [(context, inQuotes "does-not-work")]

def inclusion (o : Options) (scopes : List Scope) (name : Expr) (args : Arguments) :
    Step Unit := do
  let file ← inclusionName o scopes name
  let context ← contextBinding o scopes name args.params
  let named ← bindings scopes args.hash
  .emit (.inclusion file (context ++ named))

end Stencil.Conversion
