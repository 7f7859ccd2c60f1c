import Stencil.Text.Bytes
import Stencil.Handlebars.Parse

/-!
# Reading templates in place

The same reading as a single loop over byte offsets of the source. Nothing is
cut off the source but slices between two offsets; statements are collected on
one stack and open blocks on another, and text is added to the statement on top
while the loop goes on. Every slice and every access to a stack may fail here:
that none does is a theorem, not a matter of how the reader is written.
-/

namespace Stencil.Handlebars

open Text (Position from? upTo? slice? find? scanUntil size)

inductive Stop
  /-- The template cannot be read. -/
  | fault (e : SyntaxError)
  /-- An empty stack, or an offset that is not between two characters of the source. -/
  | crash
  /-- A turn of the loop that does not get ahead. -/
  | stuck
deriving Repr, DecidableEq

namespace Stop

/-- A fault of the tag that is opened at a byte offset. -/
def ofFault (source : List Char) (opened : Nat) (fault : Fault) : Stop :=
  match Position.ofOffset source opened with
  | some position => .fault ⟨position, fault⟩
  | none => .crash

end Stop

/-- What has to be there. -/
def need {α : Type} : Option α → Except Stop α
  | some a => .ok a
  | none => .error .crash

namespace Tag

section
variable (blame : Fault → Stop) (source : List Char)

/-- Whether a tilde stands right before the mark at `close`, the tag's body having begun at
`start`. -/
def tildeBefore (start close : Nat) : Except Stop Bool :=
  if start < close then (need (Text.bytes source)[close - 1]?).map (· == '~'.toUInt8)
  else .ok false

/-- A tag whose body ends at the closing braces at `close`, or at a tilde before them. -/
def closeAt (form : List Char → Form) (start close : Nat) : Except Stop (Form × Bool × Nat) := do
  let right ← tildeBefore source start close
  let body ← need (slice? source start (if right then close - 1 else close))
  .ok (form body, right, close + 2)

/-- A comment that ends at dashes, read from the text behind its own dashes. -/
def dashedAt (after : List Char) : Except Stop (Form × Bool × Nat) :=
  let start := size source - size after
  match (find? ['-', '-', '}', '}'] after).merge min (find? ['-', '-', '~', '}', '}'] after) with
  | none => .error (blame .unclosedComment)
  | some found => do
    let close := start + found
    let right := ['-', '-', '~', '}', '}'].isPrefixOf (← need (from? source close))
    let body ← need (slice? source start close)
    .ok (.dashed body, right, close + if right then 5 else 4)

def commentAt (start : Nat) : Except Stop (Form × Bool × Nat) := do
  match find? closingBraces (← need (from? source start)) with
  | none => .error (blame .unclosedComment)
  | some found => closeAt source .comment start (start + found)

def tripleAt (start : Nat) : Except Stop (Form × Bool × Nat) :=
  match scanUntil source start ['}'] with
  | none => .error (blame .unclosedTag)
  | some close => do
    let right := (Text.bytes source)[close + 1]? == some '~'.toUInt8
    let after := if right then close + 2 else close + 1
    if closingBraces.isPrefixOf (← need (from? source after)) then
      let body ← need (slice? source start close)
      .ok (.triple body, right, after + 2)
    else .error (blame .expectedTripleClose)

def plainAt (start : Nat) : Except Stop (Form × Bool × Nat) :=
  match scanUntil source start closingBraces with
  | none => .error (blame .unclosedTag)
  | some close => closeAt source .plain start close

/-- The form of the tag whose inside begins at `start`, its right tilde and the offset of its
end. -/

def formAt (start : Nat) : Except Stop (Form × Bool × Nat) := do
  let rest ← need (from? source start)
  if braces.isPrefixOf rest then .error (blame .rawBlock)
  else
    match Text.behind? ['!', '-', '-'] rest with
    | some after => dashedAt blame source after
    | none =>
      if rest.head? = some '!' then commentAt blame source (start + 1)
      else if rest.head? = some '{' then tripleAt blame source (start + 1)
      else plainAt blame source start

end

/-- The tag whose braces stand at byte offset `opened`, and the offset of its end. -/
def readAt (source : List Char) (opened : Nat) : Except Stop (Tag × Nat) := do
  let left := (Text.bytes source)[opened + 2]? == some '~'.toUInt8
  let (form, right, stop) ←
    formAt (.ofFault source opened) source (if left then opened + 3 else opened + 2)
  .ok (⟨left, form, right⟩, stop)

end Tag

namespace Directive

/-- Whether a plain tag begins with `else` and a blank. -/
def isChain (body : List Char) : Bool :=
  match Text.behind? "else".toList body with
  | some (c :: _) => Text.isBlank c
  | _ => false

/-- Sorts a plain tag by its trimmed body, which is sliced behind its sign. -/
def ofPlainAt (blame : Fault → Stop) (body : List Char) : Except Stop Directive := do
  match body with
  | [] => .error (blame .emptyTag)
  | first :: _ =>
    let rest ← need (from? body first.utf8Size)
    if first = '#' then (ofOpening rest).mapError blame
    else if first = '/' then .ok (closing (String.ofList (Text.trim rest)))
    else if first = '^' then
      if (Text.trim rest).isEmpty then .ok otherwise else .error (blame .inverseSection)
    else if first = '*' then .error (blame .decorator)
    else if first = '>' then (ofEmbed rest).mapError blame
    else if first = '&' then (ofMustache rest false).mapError blame
    else if body = "else".toList then .ok otherwise
    else if isChain body then (need (from? body 4)).map chain
    else (ofMustache body true).mapError blame

def ofTagAt (blame : Fault → Stop) (tag : Tag) : Except Stop Directive :=
  match tag.form with
  | .comment body => .ok (comment (String.ofList body))
  | .dashed body => .ok (comment (String.ofList body))
  | .triple body => (ofMustache body false).mapError blame
  | .plain body => ofPlainAt blame (Text.trim body)

end Directive

/-- Adds text behind statements, last first; texts that touch are joined. -/
def appendText (text : List Char) (strip : Bool) (body : List Statement) : List Statement :=
  match if strip then Text.trimStart text else text, body with
  | [], body => body
  | text, .content last :: body => .content (last ++ String.ofList text) :: body
  | text, body => .content (String.ofList text) :: body

/-- Drops the blanks at the end of the last statement, and all of it if nothing is left. -/
def trimTrailing : List Statement → Option (List Statement)
  | .content last :: body =>
    (upTo? last.toList (size (Text.trimEnd last.toList))).map fun
      | [] => body
      | kept => .content (String.ofList kept) :: body
  | body => some body

/-- A block whose closing tag has not been read. -/
structure Frame where
  /-- The byte offset of the opening tag. -/
  opened : Nat
  opening : Opening
  /-- The main program, once an `else` has ended it. -/
  main : Option Program := none
  /-- Whether the block is the inverse of the one around it. -/
  chained : Bool

namespace Frame

def name (f : Frame) : String :=
  f.opening.helper.spelling

/-- The frame behind an `else`, which takes the names along with the main program. -/
def invert (f : Frame) (body : List Statement) : Frame :=
  { f with
    opening := { f.opening with blockParams := [] }
    main := some ⟨body.reverse, f.opening.blockParams⟩ }

def complete (f : Frame) (body : List Statement) : Statement :=
  match f.main with
  | some main => .block f.opening.helper f.opening.args main (some (.ofBody body.reverse))
  | none => .block f.opening.helper f.opening.args ⟨body.reverse, f.opening.blockParams⟩ none

end Frame

/-- The two stacks of a scanner, innermost first. -/
structure Stacks where
  /-- The statements of every program that is being read, last first. -/
  nodes : List (List Statement) := [[]]
  frames : List Frame := []

namespace Stacks

/-- Changes the statements on top. -/
def onTop (k : Stacks) (change : List Statement → Option (List Statement)) : Option Stacks :=
  match k.nodes with
  | [] => none
  | top :: below => (change top).map fun top => { k with nodes := top :: below }

def push (k : Stacks) (s : Statement) : Option Stacks :=
  k.onTop fun body => some (s :: body)

def addText (k : Stacks) (text : List Char) (strip : Bool) : Option Stacks :=
  k.onTop fun body => some (appendText text strip body)

/-- The number of frames that have a closing tag of their own. -/
def depth (k : Stacks) : Nat :=
  k.frames.countP (!·.chained)

variable (blame : Fault → Stop)

/-- Opens a block; a chained one shares the depth of the block it continues. -/
def pushFrame (k : Stacks) (f : Frame) : Except Stop Stacks :=
  if !f.chained && maxNesting ≤ k.depth then .error (blame (.tooDeep maxNesting))
  else .ok ⟨[] :: k.nodes, f :: k.frames⟩

def startInverse (k : Stacks) : Except Stop Stacks :=
  match k.frames with
  | [] => .error (blame .strayElse)
  | f :: frames =>
    match f.main with
    | some _ => .error (blame (.duplicateElse f.name))
    | none =>
      match k.nodes with
      | [] => .error .crash
      | body :: nodes => .ok ⟨[] :: nodes, f.invert body :: frames⟩

def closeFrames (name : String) : List (List Statement) → List Frame → Except Stop Stacks
  | _, [] => .error (blame (.strayClose name))
  | nodes, f :: frames =>
    if !f.chained && f.name ≠ name then .error (blame (.mismatchedClose f.name name))
    else
      match nodes with
      | body :: outer :: nodes =>
        let nodes := (f.complete body :: outer) :: nodes
        if f.chained then closeFrames name nodes frames else .ok ⟨nodes, frames⟩
      | _ => .error .crash

def step (k : Stacks) (opened : Nat) : Directive → Except Stop Stacks
  | .comment text => need (k.push (.comment text))
  | .mustache head args escaped => need (k.push (.mustache head args escaped))
  | .embed name args => need (k.push (.embed name args))
  | .opening opening => k.pushFrame blame { opened, opening, chained := false }
  | .otherwise => k.startInverse blame
  | .chain call => do
    let k ← k.startInverse blame
    let opening ← (Opening.parse call).mapError blame
    k.pushFrame blame { opened, opening, chained := true }
  | .closing name => closeFrames blame name k.nodes k.frames

/-- Does what a tag asks for; a fault is reported where the tag stands. -/
def obey (source : List Char) (k : Stacks) (opened : Nat) (tag : Tag) : Except Stop Stacks := do
  let blame := Stop.ofFault source opened
  k.step blame opened (← Directive.ofTagAt blame tag)

def finish (source : List Char) (k : Stacks) : Except Stop Program :=
  match k.frames.reverse.find? (!·.chained) with
  | some f => .error (.ofFault source f.opened (.unclosedBlock f.name))
  | none =>
    match k.nodes with
    | [] => .error .crash
    | body :: _ => .ok (.ofBody body.reverse)

end Stacks

structure Scanner where
  state : Stacks := {}
  /-- Whether the tag before wants the blanks behind it dropped. -/
  stripNext : Bool := false
  /-- The byte offset up to which the source has been read. -/
  pos : Nat := 0

namespace Scanner

/-- The text from a place on, and what it runs into. -/
inductive Ahead
  | text (run : List Char)
  | escaped (run : List Char) (opened : Nat)
  | tag (run : List Char) (opened : Nat)
deriving Repr, DecidableEq

/-- Looks for the next braces; a single backslash before them makes text of the tag. -/
def ahead (source : List Char) (pos : Nat) : Except Stop Ahead := do
  let remaining ← need (from? source pos)
  match find? Tag.braces remaining with
  | none => .ok (.text remaining)
  | some found =>
    let run ← need (slice? source pos (pos + found))
    if ['\\'].isSuffixOf run && !(['\\', '\\'].isSuffixOf run) then .ok (.escaped run (pos + found))
    else .ok (.tag run (pos + found))

inductive Turn
  | last (k : Stacks)
  | again (s : Scanner)

def turn (source : List Char) (s : Scanner) : Except Stop Turn := do
  match ← ahead source s.pos with
  | .text run =>
    let k ← need (s.state.addText run s.stripNext)
    .ok (.last k)
  | .escaped run opened =>
    let stop := (scanUntil source (opened + 2) Tag.closingBraces).elim (size source) (· + 2)
    let k ← need (s.state.addText (← need (upTo? run (size run - 1))) s.stripNext)
    let k ← need (k.addText (← need (slice? source opened stop)) false)
    .ok (.again ⟨k, false, stop⟩)
  | .tag run opened =>
    let kept := if run.getLast? = some '\\' then run.dropLast else run
    let k ← need (s.state.addText kept s.stripNext)
    let (tag, stop) ← Tag.readAt source opened
    let k ← if tag.trimLeft then need (k.onTop trimTrailing) else .ok k
    let k ← k.obey source opened tag
    .ok (.again ⟨k, tag.trimRight, stop⟩)

def run (source : List Char) (s : Scanner) : Except Stop Stacks :=
  if s.pos < size source then
    match turn source s with
    | .error e => .error e
    | .ok (.last k) => .ok k
    | .ok (.again s') => if s.pos < s'.pos then run source s' else .error .stuck
  else .ok s.state
termination_by size source - s.pos

def parse (source : List Char) : Except Stop Program := do
  (← run source {}).finish source

end Scanner
end Stencil.Handlebars
