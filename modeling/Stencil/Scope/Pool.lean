import Stencil.Scope
import Stencil.Diagnostic

/-!
# Contexts that share scopes

A context is a chain of scopes below a root. Children and copies of a context
hold the very scopes it holds, so that a mark on a scope is seen by all of
them, and all contexts below one root share its tally of conditionals and
diagnostics. The pool numbers contexts, scopes and families in the order of
their creation.
-/

namespace Stencil

open Handlebars (Path)

namespace Pool

/-- What all contexts below one root share. -/
structure Family where
  conditionals : Nat := 0
  diagnostics : List Diagnostic := []
deriving Repr, DecidableEq, Inhabited

/-- A scope and whether its loop has to provide keys. -/
structure Cell where
  scope : Scope
  style : Style
deriving Repr, DecidableEq

/-- The numbers of a root scope, of the scopes inside it, innermost first, and of their
family. -/
structure Context where
  root : Nat
  inner : List Nat
  family : Nat
deriving Repr, DecidableEq

namespace Context

def depth (c : Context) : Nat :=
  c.inner.length

def cellAt? (c : Context) (depth : Nat) : Option Nat :=
  (c.root :: c.inner.reverse)[depth]?

end Context
end Pool

structure Pool where
  cells : List Pool.Cell := []
  families : List Pool.Family := []
  contexts : List Pool.Context := []
deriving Repr, DecidableEq, Inhabited

namespace Pool

/-- Adds a root; its number is the number of contexts before. -/
def newRoot (p : Pool) : Pool where
  cells := p.cells ++ [⟨{}, .values⟩]
  families := p.families ++ [{}]
  contexts := p.contexts ++ [⟨p.cells.length, [], p.families.length⟩]

/-- The context with one more scope than `c`, which the pool holds next. -/
def nextBelow (p : Pool) (c : Context) : Context :=
  { c with inner := p.cells.length :: c.inner }

def child (p : Pool) (c : Context) (scope : Scope) : Pool where
  cells := p.cells ++ [⟨scope, .values⟩]
  families := p.families
  contexts := p.contexts ++ [p.nextBelow c]

/-- Adds another context with the scopes of `c`. -/
def copy (p : Pool) (c : Context) : Pool :=
  { p with contexts := p.contexts ++ [c] }

def cell? (p : Pool) (c : Context) (depth : Nat) : Option Cell :=
  (c.cellAt? depth).bind (p.cells[·]?)

def isMarked (p : Pool) (c : Context) : Bool :=
  (p.cell? c c.depth).any (·.style = .entries)

/-- The scopes of a context without its root, innermost first. -/
def scopes (p : Pool) (c : Context) : List Scope :=
  c.inner.filterMap fun n => (p.cells[n]?).map (·.scope)

def markCell (p : Pool) (number : Nat) : Pool :=
  { p with cells := p.cells.modify number fun cell => { cell with style := .entries } }

/-- Adds a context with one more scope than `c`, which is marked if it is known to be `keyed`. -/
def openBelow (p : Pool) (c : Context) (scope : Scope) (keyed : Bool) : Pool :=
  if keyed then (p.child c scope).markCell p.cells.length else p.child c scope

def mark? (p : Pool) (c : Context) (depth : Nat) : Option Pool :=
  (c.cellAt? depth).map p.markCell

def markAll (p : Pool) (c : Context) (depths : List Nat) : Pool :=
  depths.foldl (fun p depth => (p.mark? c depth).getD p) p

def resolve (p : Pool) (c : Context) (path : Path) : String × Pool :=
  let resolution := Scopes.resolve (p.scopes c) path
  (resolution.text, (resolution.mark.bind (p.mark? c)).getD p)

def collect (p : Pool) (c : Context) (depth : Nat) : Merged :=
  Scopes.collect (p.scopes c) depth

def shared (p : Pool) (c : Context) : Family :=
  (p.families[c.family]?).getD {}

def updateFamily (p : Pool) (c : Context) (f : Family → Family) : Pool :=
  { p with families := p.families.modify c.family f }

def record (p : Pool) (c : Context) (d : Diagnostic) : Pool :=
  p.updateFamily c fun f => { f with diagnostics := f.diagnostics ++ [d] }

def count (p : Pool) (c : Context) : Pool :=
  p.updateFamily c fun f => { f with conditionals := f.conditionals + 1 }

/-- What can be done in a pool. A context is named by its number. -/
inductive Operation
  | newRoot
  | child (context : Nat) (scope : Scope)
  | copy (context : Nat)
  | resolve (context : Nat) (path : Path)
  | mark (context depth : Nat)
  | record (context : Nat) (diagnostic : Diagnostic)
  | count (context : Nat)
deriving Repr, DecidableEq

/-- The pool after an operation, unless it names a context that is not there, or a depth that the
context does not have. -/
def perform? (p : Pool) : Operation → Option Pool
  | .newRoot => some p.newRoot
  | .child n scope => (p.contexts[n]?).map (p.child · scope)
  | .copy n => (p.contexts[n]?).map p.copy
  | .resolve n path => (p.contexts[n]?).map fun c => (p.resolve c path).2
  | .mark n depth => (p.contexts[n]?).bind (p.mark? · depth)
  | .record n d => (p.contexts[n]?).map (p.record · d)
  | .count n => (p.contexts[n]?).map p.count

def run? : Pool → List Operation → Option Pool
  | p, [] => some p
  | p, operation :: rest => (p.perform? operation).bind fun q => q.run? rest

end Pool
end Stencil
