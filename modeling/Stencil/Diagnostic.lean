/-!
# Diagnostics

A diagnostic tells about output that may not do what the source did. It never
stops a conversion.
-/

namespace Stencil

inductive Diagnostic.Kind
  | unsupportedBlock
  | unsupportedWith
  | unsupportedCondition
  | unsupportedIconArgument
  | unsupportedPartial
  | partialContext
  | ignoredArguments
deriving Repr, DecidableEq

/-- A note on one degraded construct. -/
structure Diagnostic where
  kind : Diagnostic.Kind
  message : String
deriving Repr, DecidableEq

namespace Diagnostic

namespace Kind

def all : List Kind :=
  [unsupportedBlock, unsupportedWith, unsupportedCondition, unsupportedIconArgument,
    unsupportedPartial, partialContext, ignoredArguments]

def name : Kind → String
  | unsupportedBlock => "unsupported-block"
  | unsupportedWith => "unsupported-with"
  | unsupportedCondition => "unsupported-condition"
  | unsupportedIconArgument => "unsupported-icon-argument"
  | unsupportedPartial => "unsupported-partial"
  | partialContext => "partial-context"
  | ignoredArguments => "ignored-arguments"

def ofName? (name : String) : Option Kind :=
  all.find? (·.name = name)

theorem ofName?_name (k : Kind) : ofName? k.name = some k := by
  cases k <;> decide

end Kind

/-- The kind in brackets, then the message. -/
def render (d : Diagnostic) : String :=
  "[" ++ d.kind.name ++ "] " ++ d.message

def droppedArguments (helper : String) : Diagnostic :=
  ⟨.ignoredArguments, "arguments of helper `" ++ helper ++ "` are dropped"⟩

def iconArgument (key written : String) : Diagnostic :=
  ⟨.unsupportedIconArgument, "icon argument " ++ key ++ "=" ++ written ++ " is not supported"⟩

def unknownBlock (helper : String) : Diagnostic :=
  ⟨.unsupportedBlock, "unsupported block helper `" ++ helper ++ "`"⟩

def unknownCondition (written : String) : Diagnostic :=
  ⟨.unsupportedCondition, "condition `" ++ written ++ "` is not supported"⟩

def otherWith : Diagnostic :=
  ⟨.unsupportedWith, "`with` is only translated for `(lookup collection key) as |name|`"⟩

def droppedWithElse (name : String) : Diagnostic :=
  ⟨.unsupportedWith, "else branch of `with " ++ name ++ "` is dropped"⟩

def eachOver (written : String) : Diagnostic :=
  ⟨.unsupportedCondition, "`each` over `" ++ written ++ "` is not supported"⟩

def contextPassed (context partialName : String) : Diagnostic :=
  ⟨.partialContext,
    "context `" ++ context ++ "` passed to partial " ++ partialName ++ " cannot be translated"⟩

def droppedBinding (key written : String) : Diagnostic :=
  ⟨.ignoredArguments, "partial argument " ++ key ++ "=" ++ written ++ " is dropped"⟩

def computedPartial (written : String) : Diagnostic :=
  ⟨.unsupportedPartial, "partial name " ++ written ++ " is not supported"⟩

end Diagnostic
end Stencil
