import Stencil.Json
import Stencil.Handlebars.Program

/-!
# Programs as JSON

Every statement and expression is an object with a `type` and, where there is
one, a `value`. The names a block introduces are written only if there are any.
-/

namespace Stencil.Handlebars

/-- An object for one variant of a type. -/
private def variant (type : String) (value : Json) : Json :=
  .object [("type", .string type), ("value", value)]

def Path.toJson (p : Path) : Json :=
  .object [
    ("original", .string p.spelling),
    ("depth", .nat p.depth),
    ("parts", .array (p.parts.map .string)),
    ("data", .bool p.data)]

namespace Expr

mutual

def toJson : Expr → Json
  | path p => variant "Path" p.toJson
  | call helper params hash =>
    variant "SubExpression" (.object [
      ("path", helper.toJson),
      ("params", .array (paramsToJson params)),
      ("hash", .array (hashToJson hash))])
  | string s => variant "String" (.string s)
  | number n => variant "Number" (.string n)
  | boolean b => variant "Boolean" (.bool b)
  | undefined => .object [("type", .string "Undefined")]
  | null => .object [("type", .string "Null")]

def paramsToJson : List Expr → List Json
  | [] => []
  | e :: params => toJson e :: paramsToJson params

def hashToJson : List (String × Expr) → List Json
  | [] => []
  | (key, e) :: hash => .object [("key", .string key), ("value", toJson e)] :: hashToJson hash

end

end Expr

def Arguments.toFields (args : Arguments) : List (String × Json) :=
  [("params", .array (Expr.paramsToJson args.params)),
    ("hash", .array (Expr.hashToJson args.hash))]

mutual

def Statement.toJson : Statement → Json
  | .content text => variant "Content" (.string text)
  | .comment text => variant "Comment" (.string text)
  | .mustache head args escaped =>
    variant "Mustache"
      (.object (("path", head.toJson) :: args.toFields ++ [("escaped", .bool escaped)]))
  | .block helper args program inverse =>
    variant "Block"
      (.object (("path", helper.toJson) :: args.toFields ++
        [("program", program.toJson), ("inverse", Program.inverseToJson inverse)]))
  | .embed name args =>
    variant "Partial" (.object (("name", name.toJson) :: args.toFields))

def Program.toJson : Program → Json
  | ⟨body, blockParams⟩ =>
    .object (("body", .array (Program.bodyToJson body)) ::
      if blockParams.isEmpty then [] else [("block_params", .array (blockParams.map .string))])

def Program.bodyToJson : List Statement → List Json
  | [] => []
  | s :: body => s.toJson :: Program.bodyToJson body

def Program.inverseToJson : Option Program → Json
  | none => .null
  | some p => p.toJson

end

end Stencil.Handlebars
