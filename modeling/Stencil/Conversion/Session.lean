import Stencil.Conversion.Program
import Stencil.Scope.Pool

/-!
# Sessions

A converter works in place. It adds to a buffer of its own, and it marks scopes
and keeps a tally that it shares with every converter in the same family. A
program inside a block is given to another converter, which starts with an empty
buffer; what that one did to the shared scopes stays, also when it is refused.
A session is a converter that is handed one program after the other.
-/

namespace Stencil.Conversion

open Handlebars (Expr Arguments Path Statement Program)
open Django (Piece Fragment)

/-- What the converter at work changes. -/
structure Workspace where
  pool : Pool
  buffer : List Fragment := []
  /-- The warnings that were shown, each with the depth of the converter. -/
  warnings : List (Nat × Diagnostic) := []
deriving Repr

structure Place where
  context : Pool.Context
  /-- The number of loops around it, as warnings show it. -/
  depth : Nat
deriving Repr, DecidableEq

namespace Workspace

/-- The workspace with what a step leaves at a place. -/
def leave (w : Workspace) (place : Place) (log : Log) : Workspace where
  pool := (w.pool.markAll place.context log.marks).updateFamily place.context fun f =>
    { conditionals := f.conditionals + log.conditionals
      diagnostics := f.diagnostics ++ log.diagnostics }
  buffer := w.buffer ++ log.fragments
  warnings := w.warnings ++ log.diagnostics.map (place.depth, ·)

end Workspace

/-- A conversion that changes its workspace, and gives a result or is refused. -/
def InPlace (α : Type) : Type :=
  Workspace → Except Refusal α × Workspace

namespace InPlace

variable {α β : Type}

protected def pure (a : α) : InPlace α :=
  fun w => (.ok a, w)

/-- The second conversion goes on where the first one stopped, unless that was refused. -/
protected def bind (x : InPlace α) (f : α → InPlace β) : InPlace β := fun w =>
  match x w with
  | (.error e, w) => (.error e, w)
  | (.ok a, w) => f a w

instance : Monad InPlace where
  pure := InPlace.pure
  bind := InPlace.bind

/-- Carries out a step, in the scopes that are found at the place. -/
def carryOut (place : Place) (step : List Scope → Step α) : InPlace α := fun w =>
  let done := step (w.pool.scopes place.context)
  (done.result, w.leave place done.log)

def write (place : Place) (f : Fragment) : InPlace Unit :=
  carryOut place fun _ => .write f

def emit (place : Place) (p : Piece) : InPlace Unit :=
  carryOut place fun _ => .emit p

/-- The texts of another converter, whose buffer is its own. -/
def nested (x : InPlace Unit) : InPlace Fragment := fun w =>
  let (result, inner) := x { w with buffer := [] }
  (result.map fun _ => inner.buffer.flatten, { inner with buffer := w.buffer })

/-- The texts of another converter inside a scope that is opened for it, and whether that scope
is marked in the end. It may be marked from the start. -/
def nestedWithin (c : Pool.Context) (scope : Scope) (keyed : Bool)
    (x : Pool.Context → InPlace Unit) : InPlace (Fragment × Bool) := fun w =>
  let inner := w.pool.nextBelow c
  let (result, after) := nested (x inner) { w with pool := w.pool.openBelow c scope keyed }
  (result.map fun body => (body, after.pool.isMarked inner), after)

/-- A program that is yet to be converted in place. -/
structure Branch where
  /-- Whether the program is a single `if`. -/
  loneIf : Bool
  convert : Place → Bool → InPlace Unit

structure Block where
  helper : Path
  args : Arguments
  blockParams : List String
  main : Branch
  inverse : Option Branch

def alternative (place : Place) (mark : Piece) : Option Branch → InPlace Unit
  | none => pure ()
  | some inverse => do
    let body ← nested (inverse.convert place false)
    emit place mark
    write place body

def chainedAlternative (place : Place) : Option Branch → InPlace Unit
  | none => pure ()
  | some inverse => do
    let body ← nested (inverse.convert place inverse.loneIf)
    if inverse.loneIf then write place body
    else do
      emit place .elseMark
      write place body

def ifBlock (place : Place) (chained : Bool) (b : Block) : InPlace Unit := do
  let test ← carryOut place fun scopes => condition scopes b.args.params[0]?
  carryOut place fun _ => .count
  emit place (if chained then .elifOpen test else .ifOpen (.holds test))
  let body ← nested (b.main.convert place false)
  write place body
  chainedAlternative place b.inverse
  if chained then pure () else emit place .endIf

def conditionalBranches (place : Place) (b : Block) : InPlace Unit := do
  let body ← nested (b.main.convert place false)
  write place body
  alternative place .elseMark b.inverse
  emit place .endIf

def unlessBlock (place : Place) (b : Block) : InPlace Unit := do
  let test ← carryOut place fun scopes => condition scopes b.args.params[0]?
  carryOut place fun _ => .count
  emit place (.ifOpen (.fails test))
  conditionalBranches place b

def equalBlock (place : Place) (b : Block) : InPlace Unit := do
  let left ← carryOut place fun scopes => argument? scopes b.args.params[0]?
  carryOut place fun _ => .count
  emit place
    (.ifOpen (.equal left ((b.args.params[1]?.map Expr.asWritten).getD unresolved)))
  conditionalBranches place b

def keptBlock (place : Place) (b : Block) : InPlace Unit := do
  emit place (.keptOpen b.helper.spelling)
  let body ← nested (b.main.convert place false)
  write place body
  alternative place .keptElse b.inverse
  emit place (.keptClose b.helper.spelling)

/-- Writes a `with` that looks an entry up; nobody asks whether its scope was marked. -/
def lookupBlock (place : Place) (b : Block) (collection key : Expr) (name : String) :
    InPlace Unit := do
  let collection ← carryOut place fun scopes => argument scopes collection
  let key ← carryOut place fun scopes => argument scopes key
  emit place (.withOpen name collection key)
  let (body, _) ← nestedWithin place.context { names := [name] } false fun inner =>
    b.main.convert ⟨inner, place.depth⟩ false
  write place body
  if b.inverse.isSome then carryOut place fun _ => .report (.droppedWithElse name) else pure ()
  emit place .endWith

def withBlock (place : Place) (b : Block) : InPlace Unit :=
  match lookup? b.args b.blockParams with
  | some (collection, key, name) => lookupBlock place b collection key name
  | none => do
    carryOut place fun _ => .report .otherWith
    keptBlock place b

/-- Writes a loop. Two names mark its scope before the body can. -/
def eachBlock (place : Place) (b : Block) : InPlace Unit := do
  let items ← carryOut place fun scopes => collection scopes b.args.params[0]?
  let names := loopNames b.blockParams items
  let (body, entries) ← nestedWithin place.context { names } (b.blockParams.length = 2) fun inner =>
    b.main.convert ⟨inner, place.depth + 1⟩ false
  emit place (loopHeader names items entries)
  write place body
  alternative place .emptyMark b.inverse
  emit place .endFor

def block (place : Place) (chained : Bool) (b : Block) : InPlace Unit :=
  if b.helper.spelling = "if" then ifBlock place chained b
  else if b.helper.spelling = "unless" then unlessBlock place b
  else if b.helper.spelling = "eq" || b.helper.spelling = "is" then equalBlock place b
  else if b.helper.spelling = "with" then withBlock place b
  else if b.helper.spelling = "each" then eachBlock place b
  else do
    carryOut place fun _ => .report (.unknownBlock b.helper.spelling)
    keptBlock place b

mutual

def statement (o : Options) : Statement → Place → Bool → InPlace Unit
  | .content text, place, _ => emit place (.text text)
  | .comment text, place, _ => emit place (.comment text)
  | .mustache head args escaped, place, _ =>
    carryOut place fun scopes => mustache o scopes head args escaped
  | .block helper args program inverse, place, chained =>
    block place chained
      { helper, args, blockParams := program.blockParams,
        main := branch o program, inverse := branch? o inverse }
  | .embed name args, place, _ => carryOut place fun scopes => inclusion o scopes name args

def statements (o : Options) : List Statement → Place → Bool → InPlace Unit
  | [], _, _ => pure ()
  | s :: rest, place, chained => do
    statement o s place chained
    statements o rest place chained

def branch (o : Options) : Program → Branch
  | ⟨body, blockParams⟩ =>
    { loneIf := Program.isLoneIf ⟨body, blockParams⟩
      convert := fun place chained => statements o body place chained }

def branch? (o : Options) : Option Program → Option Branch
  | none => none
  | some p => some (branch o p)

end

end InPlace

/-- A converter with what it and others have left so far. -/
structure Session where
  options : Options
  place : Place
  workspace : Workspace
deriving Repr

namespace Session

/-- A root with scopes inside it, innermost first, and the context that holds them all. -/
def nest : List Scope → Pool × Pool.Context
  | [] => (Pool.newRoot {}, ⟨0, [], 0⟩)
  | scope :: outer =>
    let (p, c) := nest outer
    (p.child c scope, p.nextBelow c)

/-- A converter in scopes of its own. -/
def start (o : Options) (scopes : List Scope) (depth : Nat) : Session where
  options := o
  place := ⟨(nest scopes).2, depth⟩
  workspace := { pool := (nest scopes).1 }

def run (s : Session) (p : Program) (chained : Bool) : Except Refusal Unit × Session :=
  let (result, w) := InPlace.statements s.options p.body s.place chained s.workspace
  (result, { s with workspace := w })

/-- Converts programs one after the other, whether or not some are refused. -/
def runs (s : Session) : List (Program × Bool) → Session
  | [] => s
  | (p, chained) :: rest => ((s.run p chained).2).runs rest

/-- The scopes inside the root, innermost first. -/
def scopes (s : Session) : List Scope :=
  s.workspace.pool.scopes s.place.context

def fragments (s : Session) : List String :=
  s.workspace.buffer.map Django.Fragment.render

def output (s : Session) : String :=
  Django.concat s.fragments

/-- What was noted and counted so far, by all converters of the family. -/
def tally (s : Session) : Pool.Family :=
  s.workspace.pool.shared s.place.context

/-- The style of the scope at a depth, if there is one; the root is at depth zero. -/
def style? (s : Session) (depth : Nat) : Option Style :=
  (s.workspace.pool.cell? s.place.context depth).map (·.style)

def styles (s : Session) : List Style :=
  (List.range (s.place.context.depth + 1)).filterMap s.style?

end Session
end Stencil.Conversion
