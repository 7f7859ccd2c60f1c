import Stencil.Handlebars.Directive
import Stencil.Handlebars.Program

/-!
# Open blocks

While a template is read, every block that has not been closed keeps what it
has collected so far and the statements that stand before it. A block opened
by a chained `else` is closed together with the block whose inverse it is, and
does not count towards the limit on nesting.
-/

namespace Stencil.Handlebars

open Text (Position)

/-- The greatest number of blocks that may be open at once. -/
def maxNesting : Nat := 256

/-- A block whose closing tag has not been read. -/
structure OpenBlock where
  position : Position
  opening : Opening
  /-- The main program, once an `else` has ended it. -/
  main : Option Program
  /-- Whether the block is the inverse of the one around it. -/
  chained : Bool
  /-- The statements before the block, last first. -/
  before : List Statement

namespace OpenBlock

def name (b : OpenBlock) : String :=
  b.opening.helper.spelling

/-- The finished block, given the statements since its opening or its `else`, last first. -/
def complete (b : OpenBlock) (current : List Statement) : Statement :=
  match b.main with
  | some main =>
    .block b.opening.helper b.opening.args main (some (.ofBody current.reverse))
  | none =>
    .block b.opening.helper b.opening.args ⟨current.reverse, b.opening.blockParams⟩ none

end OpenBlock

/-- The place a reader has reached: the current statements, last first, inside the open
blocks, innermost first. -/
structure Nesting where
  current : List Statement := []
  blocks : List OpenBlock := []

namespace Nesting

def push (n : Nesting) (s : Statement) : Nesting :=
  { n with current := s :: n.current }

/-- The number of open blocks that have a closing tag of their own. -/
def depth (n : Nesting) : Nat :=
  n.blocks.countP (!·.chained)

def enter (n : Nesting) (position : Position) (opening : Opening) (chained : Bool) : Nesting where
  current := []
  blocks := { position, opening, main := none, chained, before := n.current } :: n.blocks

def invert (n : Nesting) : Except Fault Nesting :=
  match n.blocks with
  | [] => .error .strayElse
  | b :: blocks =>
    match b.main with
    | some _ => .error (.duplicateElse b.name)
    | none =>
      let main : Program := ⟨n.current.reverse, b.opening.blockParams⟩
      .ok { current := [], blocks := { b with main := some main } :: blocks }

/-- Closes chained blocks up to and including the block they continue. -/
def close (name : String) : List Statement → List OpenBlock → Except Fault Nesting
  | _, [] => .error (.strayClose name)
  | current, b :: blocks =>
    if b.chained then close name (b.complete current :: b.before) blocks
    else if b.name = name then .ok { current := b.complete current :: b.before, blocks }
    else .error (.mismatchedClose b.name name)

def step (n : Nesting) (position : Position) : Directive → Except Fault Nesting
  | .comment text => .ok (n.push (.comment text))
  | .mustache head args escaped => .ok (n.push (.mustache head args escaped))
  | .embed name args => .ok (n.push (.embed name args))
  | .opening opening =>
    if maxNesting ≤ n.depth then .error (.tooDeep maxNesting)
    else .ok (n.enter position opening false)
  | .otherwise => n.invert
  | .chain call =>
    match n.invert with
    | .error fault => .error fault
    | .ok n => (Opening.parse call).map fun opening => n.enter position opening true
  | .closing name => close name n.current n.blocks

/-- The whole program, unless a block is still open; the outermost one is reported. -/
def finish (n : Nesting) : Except SyntaxError Program :=
  match n.blocks.reverse.find? (!·.chained) with
  | some b => .error ⟨b.position, .unclosedBlock b.name⟩
  | none => .ok (.ofBody n.current.reverse)

end Nesting
end Stencil.Handlebars
