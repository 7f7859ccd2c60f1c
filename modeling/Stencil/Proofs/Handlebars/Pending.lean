import Stencil.Proofs.Handlebars.Escape
import Stencil.Proofs.Handlebars.Stacks
import Stencil.Proofs.Handlebars.Trimming

/-!
# Text in pieces

A scanner adds a text to the statement on top piece by piece, and trims its
front when the first piece is added and its back when the next tag is read. That
gives the same as joining and trimming the segments before anything is done with
them.
-/

namespace Stencil.Handlebars

open Text (Position upTo? size)
open Segment (consText tidy trimmedBy)

@[simp] theorem appendText_nil (body : List Statement) : appendText [] false body = body := by
  cases body <;> rfl

theorem appendText_strip (text : List Char) (strip : Bool) (body : List Statement) :
    appendText text strip body = appendText (trimmedBy strip false text) false body := by
  cases strip <;> rfl

section
variable {body : List Statement} (h : ∀ s ∈ body.head?, s.isContent = false)
include h

theorem appendText_of_not_content {text : List Char} (htext : text ≠ []) :
    appendText text false body = .content (String.ofList text) :: body := by
  obtain ⟨c, text, rfl⟩ := List.exists_cons_of_ne_nil htext
  cases body with
  | nil => rfl
  | cons s body =>
    cases s with
    | content last => exact absurd (h _ rfl) (by simp [Statement.isContent])
    | _ => rfl

/-- Texts that are added one after the other are joined. -/
theorem appendText_appendText (first second : List Char) :
    appendText second false (appendText first false body) =
      appendText (first ++ second) false body := by
  by_cases hfirst : first = []
  · rw [hfirst, appendText_nil, List.nil_append]
  by_cases hsecond : second = []
  · rw [hsecond, appendText_nil, List.append_nil]
  rw [appendText_of_not_content h hfirst, appendText_of_not_content h (by simp [hfirst])]
  obtain ⟨c, second, rfl⟩ := List.exists_cons_of_ne_nil hsecond
  rw [String.ofList_append]
  rfl

theorem trimTrailing_appendText (text : List Char) :
    trimTrailing (appendText text false body) =
      some (appendText (Text.trimEnd text) false body) := by
  by_cases htext : text = []
  · rw [htext, appendText_nil]
    cases body with
    | nil => rfl
    | cons s body =>
      cases s with
      | content last => exact absurd (h _ rfl) (by simp [Statement.isContent])
      | _ => rfl
  · obtain ⟨dropped, hdropped⟩ := Text.isPrefix_trimEnd text
    have hcut : upTo? text (size (Text.trimEnd text)) = some (Text.trimEnd text) := by
      conv => lhs; arg 1; rw [← hdropped]
      exact Text.upTo?_append _ _
    rw [appendText_of_not_content h htext, trimTrailing, String.toList_ofList, hcut]
    cases hkept : Text.trimEnd text with
    | nil => rw [appendText_nil]; rfl
    | cons c kept =>
      rw [appendText_of_not_content h (List.cons_ne_nil c kept)]
      rfl

end

namespace Nesting

/-- The nesting with a text behind the current statements. -/
def hold (n : Nesting) (text : List Char) : Nesting :=
  { n with current := appendText text false n.current }

@[simp] theorem hold_nil (n : Nesting) : n.hold [] = n := by
  rw [hold, appendText_nil]

theorem ready_close {name : String} {current : List Statement} {blocks : List OpenBlock}
    {m : Nesting} (h : close name current blocks = .ok m) : m.Ready := by
  induction blocks generalizing current with
  | nil => cases h
  | cons b blocks ih =>
    rw [close] at h
    split at h
    · exact ih h
    · split at h
      · cases h
        simp only [Ready, List.head?_cons, Option.mem_some_iff, forall_eq']
        unfold OpenBlock.complete
        split <;> rfl
      · cases h

/-- What a tag leaves on top is no text. -/
theorem ready_apply {n m : Nesting} {position : Position} {t : Tag}
    (h : n.apply position t = .ok m) : m.Ready := by
  obtain ⟨d, -, hstep⟩ := apply_eq_ok.mp h
  cases d with
  | comment text => cases hstep; simp [Ready, push, Statement.isContent]
  | mustache head args escaped => cases hstep; simp [Ready, push, Statement.isContent]
  | embed name args => cases hstep; simp [Ready, push, Statement.isContent]
  | opening opening =>
    obtain ⟨-, rfl⟩ := step_opening_eq_ok.mp hstep
    simp [Ready, enter]
  | otherwise =>
    obtain ⟨b, blocks, -, -, rfl⟩ := invert_eq_ok.mp hstep
    simp [Ready]
  | chain call =>
    obtain ⟨inner, opening, -, -, rfl⟩ := step_chain_eq_ok.mp hstep
    simp [Ready, enter]
  | closing name => exact ready_close hstep

/-- A text in front of segments that begin with a tag is added as it is. -/
theorem run_consText_hold {n : Nesting} (h : n.Ready) (text : List Char)
    {segments : List Segment} (hfirst : ∀ segment ∈ segments.head?, segment.isText = false) :
    n.run (consText text segments) = (n.hold text).run segments := by
  by_cases htext : text = []
  · rw [htext, hold_nil]
    rfl
  · have hcons : consText text segments = .text text :: segments := by
      obtain ⟨c, text, rfl⟩ := List.exists_cons_of_ne_nil htext
      cases segments with
      | nil => rfl
      | cons segment segments =>
        cases segment with
        | text more => exact absurd (hfirst _ rfl) (by simp [Segment.isText])
        | _ => rfl
    rw [hcons, hold, appendText_of_not_content h htext]
    rfl

end Nesting

namespace Segment

theorem trimStart_append_of_first {s t : List Char} {c : Char} (ht : t.head? = some c)
    (hc : Text.isBlank c = false) : Text.trimStart (s ++ t) = Text.trimStart s ++ t := by
  obtain ⟨t, rfl⟩ := List.head?_eq_some_iff.mp ht
  rw [Text.trimStart, List.dropWhile_append]
  split
  · next hnil =>
    rw [Text.trimStart, List.isEmpty_iff.mp hnil, List.dropWhile_cons_of_neg (by simp [hc])]
    rfl
  · rfl

/-- The front of a text can be trimmed before something is added that does not begin with a
blank. -/
theorem tidy_consText_of_first {text : List Char} {c : Char} (htext : text.head? = some c)
    (hc : Text.isBlank c = false) (left : Bool) (run : List Char) (segments : List Segment) :
    tidy left (consText (run ++ text) segments) =
      tidy false (consText (trimmedBy left false run ++ text) segments) := by
  cases left with
  | false => rfl
  | true =>
    have hne (front : List Char) : front ++ text ≠ [] := by
      rintro hnil
      rw [(List.append_eq_nil_iff.mp hnil).2] at htext
      cases htext
    obtain ⟨more, rest, hmore⟩ := exists_consText_eq (hne []) segments
    have hboth (front : List Char) :
        consText (front ++ text) segments = .text (front ++ (text ++ more)) :: rest := by
      rw [← consText_consText, ← List.nil_append text, hmore]
      cases front <;> rfl
    have hfirst : (text ++ more).head? = some c := by
      rw [List.head?_append, htext]
      rfl
    rw [hboth, hboth, tidy_text, tidy_text]
    congr 1
    simp only [trimmedBy, if_true, Bool.false_eq_true, if_false]
    rw [trimStart_append_of_first hfirst hc]

/-- Trimming the front of a text that has been begun leaves the beginning alone. -/
theorem trimmedBy_pending {pending : List Char} {left : Bool} (h : pending ≠ [] → left = false)
    (run : List Char) :
    trimmedBy left false (pending ++ run) = pending ++ trimmedBy left false run := by
  by_cases hpending : pending = []
  · rw [hpending, List.nil_append, List.nil_append]
  · rw [h hpending]
    rfl

theorem tidy_consText_broken (left : Bool) (run : List Char) (position : Position) (fault : Fault) :
    tidy left (consText run [broken position fault]) =
      consText (trimmedBy left false run) [broken position fault] := by
  cases run with
  | nil => rw [Segment.trimmedBy_nil]; rfl
  | cons c run => rfl

end Segment
end Stencil.Handlebars
