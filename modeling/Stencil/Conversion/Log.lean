import Stencil.Diagnostic
import Stencil.Scope
import Stencil.Django.Piece

/-!
# What a conversion leaves behind

A step of a conversion writes fragments, notes diagnostics, counts conditional
tags and marks scopes whose loop has to provide keys. It gives a result or is
refused; what it had left behind until then stays in either case. Steps are
put in sequence, and the log of a sequence is the logs one after the other.
-/

namespace Stencil.Conversion

open Handlebars (Path)
open Django (Piece Fragment)

inductive Refusal
  /-- A value is written out where a reference is wanted. -/
  | literalInterpolation (written : String)
  /-- A partial is handed a whole context. -/
  | contextPassed (partialName context : String)
deriving Repr, DecidableEq

namespace Refusal

def message : Refusal → String
  | literalInterpolation written => "Literal interpolation is not implemented: " ++ written
  | contextPassed partialName context =>
    "Partial '" ++ partialName ++ "' is passed a context (" ++ context ++
      "); Django includes can only add named variables"

end Refusal

/-- The traces of a conversion, in the order in which they were left. -/
structure Log where
  fragments : List Fragment := []
  diagnostics : List Diagnostic := []
  conditionals : Nat := 0
  /-- The depths of the scopes that were asked for a key without a name. -/
  marks : List Nat := []
deriving Repr, DecidableEq, Inhabited

namespace Log

def append (a b : Log) : Log where
  fragments := a.fragments ++ b.fragments
  diagnostics := a.diagnostics ++ b.diagnostics
  conditionals := a.conditionals + b.conditionals
  marks := a.marks ++ b.marks

instance : Append Log := ⟨append⟩

theorem append_def (a b : Log) : a ++ b = a.append b := rfl

@[simp] theorem nil_append (a : Log) : ({} : Log) ++ a = a := by
  simp [append_def, append]

@[simp] theorem append_nil (a : Log) : a ++ ({} : Log) = a := by
  simp [append_def, append]

theorem append_assoc (a b c : Log) : a ++ b ++ c = a ++ (b ++ c) := by
  simp [append_def, append, Nat.add_assoc]

end Log

/-- A result, or the reason why there is none, with the traces left on the way. -/
structure Step (α : Type) where
  log : Log
  result : Except Refusal α

namespace Step

variable {α β γ : Type}

instance [Inhabited α] : Inhabited (Step α) := ⟨⟨{}, .ok default⟩⟩

protected def pure (a : α) : Step α := ⟨{}, .ok a⟩

/-- The second step runs on the first one's result, if there is one. -/
protected def bind (x : Step α) (f : α → Step β) : Step β :=
  match x.result with
  | .error e => ⟨x.log, .error e⟩
  | .ok a => ⟨x.log ++ (f a).log, (f a).result⟩

instance : Monad Step where
  pure := Step.pure
  bind := Step.bind

theorem bind_def (x : Step α) (f : α → Step β) : x >>= f = x.bind f := rfl

theorem pure_def (a : α) : (pure a : Step α) = ⟨{}, .ok a⟩ := rfl

theorem pure_bind (a : α) (f : α → Step β) : (pure a >>= f) = f a := by
  simp [bind_def, pure_def, Step.bind]

theorem bind_pure (x : Step α) : (x >>= pure) = x := by
  obtain ⟨log, result⟩ := x
  cases result <;> simp [bind_def, pure_def, Step.bind]

theorem bind_assoc (x : Step α) (f : α → Step β) (g : β → Step γ) :
    (x >>= f >>= g) = (x >>= fun a => f a >>= g) := by
  obtain ⟨log, result⟩ := x
  cases result with
  | error e => rfl
  | ok a =>
    simp only [bind_def, Step.bind]
    cases (f a).result <;> simp [Log.append_assoc]

def write (f : Fragment) : Step Unit := ⟨{ fragments := [f] }, .ok ()⟩

/-- Writes a fragment of one piece. -/
def emit (p : Piece) : Step Unit := write [p]

def report (d : Diagnostic) : Step Unit := ⟨{ diagnostics := [d] }, .ok ()⟩

def count : Step Unit := ⟨{ conditionals := 1 }, .ok ()⟩

def refuse (r : Refusal) : Step α := ⟨{}, .error r⟩

/-- The text that a reference becomes, with the mark it leaves. -/
def resolve (scopes : List Scope) (path : Path) : Step String :=
  let resolution := Scopes.resolve scopes path
  ⟨{ marks := resolution.mark.toList }, .ok resolution.text⟩

/-- A step whose fragments are not written but handed on as one. -/
def gather (x : Step Unit) : Step Fragment :=
  ⟨{ x.log with fragments := [] }, x.result.map fun _ => x.log.fragments.flatten⟩

/-- A step inside one more scope than the `depth` around it, gathered. The second result tells
whether that scope was marked; the mark itself goes no further. -/
def gatherWithin (depth : Nat) (x : Step Unit) : Step (Fragment × Bool) :=
  ⟨{ x.log with fragments := [], marks := x.log.marks.filter (· ≤ depth) },
    x.result.map fun _ => (x.log.fragments.flatten, x.log.marks.contains (depth + 1))⟩

end Step
end Stencil.Conversion
