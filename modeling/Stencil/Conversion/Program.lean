import Stencil.Handlebars.Program
import Stencil.Conversion.Block
import Stencil.Conversion.Icon
import Stencil.Conversion.Inclusion

/-!
# Converting programs

Statements are converted one after the other, blocks with the programs inside
them.
-/

namespace Stencil.Conversion

open Handlebars (Expr Arguments Statement Program)

def mustache (o : Options) (scopes : List Scope) (head : Expr) (args : Arguments)
    (escaped : Bool) : Step Unit :=
  match head with
  | .path path =>
    if path.spelling = o.iconHelper then icon o scopes args
    else do
      if args.isEmpty then pure () else .report (.droppedArguments path.spelling)
      let value ← reference scopes path
      .emit (.output value (!escaped))
  | e => .refuse (.literalInterpolation e.asWritten)

mutual

/-- Converts a statement; `chained` tells whether an `if` continues a chain. -/
def statement (o : Options) : Statement → List Scope → Bool → Step Unit
  | .content text, _, _ => .emit (.text text)
  | .comment text, _, _ => .emit (.comment text)
  | .mustache head args escaped, scopes, _ => mustache o scopes head args escaped
  | .block helper args program inverse, scopes, chained =>
    block scopes chained
      { helper, args, blockParams := program.blockParams,
        main := branch o program, inverse := branch? o inverse }
  | .embed name args, scopes, _ => inclusion o scopes name args

def statements (o : Options) : List Statement → List Scope → Bool → Step Unit
  | [], _, _ => pure ()
  | s :: rest, scopes, chained => do
    statement o s scopes chained
    statements o rest scopes chained

def branch (o : Options) : Program → Branch
  | ⟨body, blockParams⟩ =>
    { loneIf := Program.isLoneIf ⟨body, blockParams⟩
      convert := fun scopes chained => statements o body scopes chained }

def branch? (o : Options) : Option Program → Option Branch
  | none => none
  | some p => some (branch o p)

end

def program (o : Options) (p : Program) (scopes : List Scope) (chained : Bool) : Step Unit :=
  statements o p.body scopes chained

end Stencil.Conversion
