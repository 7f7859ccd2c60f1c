import Stencil.Handlebars.Nesting
import Stencil.Handlebars.Segment

/-!
# Reading templates

A template is read by treating its segments from left to right. The first
fault ends the reading.
-/

namespace Stencil.Handlebars

namespace Nesting

/-- The effect of a tag, a fault being reported where the tag stands. -/
def apply (n : Nesting) (position : Text.Position) (tag : Tag) : Except SyntaxError Nesting :=
  match Directive.ofTag tag with
  | .error fault => .error ⟨position, fault⟩
  | .ok directive => (n.step position directive).mapError (⟨position, ·⟩)

def run : Nesting → List Segment → Except SyntaxError Nesting
  | n, [] => .ok n
  | n, .text run :: segments => (n.push (.content (String.ofList run))).run segments
  | n, .tag position tag :: segments =>
    match n.apply position tag with
    | .error e => .error e
    | .ok n => n.run segments
  | _, .broken position fault :: _ => .error ⟨position, fault⟩

end Nesting

namespace Program

def ofText (source : List Char) : Except SyntaxError Program :=
  match Nesting.run {} (Segment.ofSource source) with
  | .error e => .error e
  | .ok n => n.finish

def parse (source : String) : Except SyntaxError Program :=
  ofText source.toList

end Program
end Stencil.Handlebars
