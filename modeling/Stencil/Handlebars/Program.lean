import Stencil.Handlebars.Expr

/-!
# Templates as trees

A program is a sequence of statements together with the names that its block
introduces. Blocks hold a main program and may hold an inverse, which is shown
when the main one is not.
-/

namespace Stencil.Handlebars

mutual

inductive Statement
  /-- Text to be copied. -/
  | content (text : String)
  /-- A note that is not shown. -/
  | comment (text : String)
  /-- An interpolated value; a raw one is not escaped. -/
  | mustache (head : Expr) (args : Arguments) (escaped : Bool)
  /-- A helper applied to a body. -/
  | block (helper : Path) (args : Arguments) (program : Program) (inverse : Option Program)
  /-- Another template, rendered in place. -/
  | embed (name : Expr) (args : Arguments)

/-- Statements under the names that their block introduces. -/
structure Program where
  body : List Statement
  blockParams : List String

end

instance : Inhabited Statement := ⟨.content ""⟩

instance : Inhabited Program := ⟨⟨[], []⟩⟩

namespace Program

/-- A program that introduces no names. -/
def ofBody (body : List Statement) : Program :=
  ⟨body, []⟩

@[simp] theorem ofBody_body (body : List Statement) : (ofBody body).body = body := rfl

/-- Whether the program is a single `if` and nothing else, so that it can continue the
chain of an enclosing `if`. -/
def isLoneIf (p : Program) : Bool :=
  match p.body with
  | [.block helper _ _ _] => helper.spelling = "if"
  | _ => false

end Program
end Stencil.Handlebars
