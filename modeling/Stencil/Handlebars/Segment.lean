import Stencil.Text.Blank
import Stencil.Handlebars.Tag

/-!
# Segments

A template is cut into runs of text and the tags between them. A backslash
before a tag turns the whole tag into text, two backslashes stand for one
before a tag. Runs that touch are joined, and empty ones are left out. A tag
that cannot be read ends the list.
-/

namespace Stencil.Handlebars

open Text (Position)

inductive Segment
  | text (run : List Char)
  | tag (position : Position) (tag : Tag)
  | broken (position : Position) (fault : Fault)
deriving Repr, DecidableEq

namespace Segment

def consText : List Char → List Segment → List Segment
  | [], segments => segments
  | run, text more :: segments => text (run ++ more) :: segments
  | run, segments => text run :: segments

def backslashes (s : List Char) : Nat :=
  (s.reverse.takeWhile (· = '\\')).length

private theorem length_lt_of_cut {mark s before after : List Char} (hm : mark ≠ [])
    (h : Text.cut mark s = some (before, after)) : after.length < s.length := by
  have := congrArg List.length (Text.append_of_cut h)
  have := List.length_pos_iff.2 hm
  simp only [List.length_append] at *
  omega

private theorem length_le_of_cutOutside {mark s before after : List Char}
    (h : Text.cutOutside mark .outside s = some (before, after)) : after.length ≤ s.length := by
  have := congrArg List.length (Text.append_of_cutOutside h)
  simp only [List.length_append] at this
  omega

def scan (position : Position) (s : List Char) : List Segment :=
  match hs : Text.cut Tag.braces s with
  | none => consText s []
  | some (before, after) =>
    have := length_lt_of_cut (by decide) hs
    let here := position.after before
    if backslashes before = 1 then
      match ha : Text.cutOutside Tag.closingBraces .outside after with
      | none => consText (before.dropLast ++ Tag.braces ++ after) []
      | some (body, rest) =>
        have := length_le_of_cutOutside ha
        let literal := Tag.braces ++ body ++ Tag.closingBraces
        consText (before.dropLast ++ literal) (scan (here.after literal) rest)
    else
      consText (if backslashes before = 0 then before else before.dropLast)
        (match ht : Tag.read after with
        | .error fault => [broken here fault]
        | .ok (t, rest) =>
          have := Tag.length_le_of_read ht
          tag here t :: scan (here.after t.lexeme) rest)
termination_by s.length

/-- Whether the next tag wants the blanks before it dropped. -/
def wantsTrim : List Segment → Bool
  | tag _ t :: _ => t.trimLeft
  | _ => false

/-- Drops the blanks that tildes point at; `left` tells whether the tag before has one. -/
def tidy : Bool → List Segment → List Segment
  | _, [] => []
  | left, text run :: segments =>
    let run := if left then Text.trimStart run else run
    let run := if wantsTrim segments then Text.trimEnd run else run
    consText run (tidy false segments)
  | _, tag position t :: segments => tag position t :: tidy t.trimRight segments
  | _, broken position fault :: segments => broken position fault :: tidy false segments

/-- The segments of a template, trimmed. -/
def ofSource (source : List Char) : List Segment :=
  tidy false (scan .start source)

end Segment
end Stencil.Handlebars
