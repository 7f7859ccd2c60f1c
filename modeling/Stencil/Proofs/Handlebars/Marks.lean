import Stencil.Proofs.Handlebars.Locality

/-!
# The marks of a template

Whether a template can be read, and where it fails if it cannot, depends on its
tags and on where they stand, but not on the texts between them. When a text is
cut off, its tags are the first ones of the whole, but for a last one that has
lost its end; and a text that ends where a tag begins holds the tags before that
one.
-/

namespace Stencil.Handlebars

open Text (Position)

/-- Whether more text can mend the fault: the tag has not ended. -/
def Fault.isUnfinished : Fault → Bool
  | unclosedTag => true
  | unclosedComment => true
  | expectedTripleClose => true
  | _ => false

namespace Tag

theorem readForm_error_append_right {s : List Char} {fault : Fault} (h : readForm s = .error fault)
    (hfault : fault.isUnfinished = false) (more : List Char) :
    readForm (s ++ more) = .error fault := by
  unfold readForm at h
  split at h
  · cases h
    rfl
  · split at h <;> cases h
    cases hfault
  · split at h <;> cases h
    cases hfault
  · split at h
    · cases h
      cases hfault
    · split at h <;> cases h
      cases hfault
  · split at h <;> cases h
    cases hfault

/-- A tag that has ended, or never will, is refused whatever follows it. -/
theorem read_error_append_right {s : List Char} {fault : Fault} (h : read s = .error fault)
    (hfault : fault.isUnfinished = false) (more : List Char) :
    read (s ++ more) = .error fault := by
  have hs : s ≠ [] := by
    rintro rfl
    cases h
    cases hfault
  unfold read at h ⊢
  rw [dropTilde_append_right hs]
  split at h
  · next fault' hform =>
    cases h
    rw [readForm_error_append_right hform hfault]
  · cases h

end Tag

namespace Segment

def position? : Segment → Option Position
  | text _ => none
  | tag position _ => some position
  | broken position _ => some position

theorem marks_scanTag_of_read {position : Position} {after rest : List Char} {t : Tag}
    (hread : Tag.read after = .ok (t, rest)) :
    marks (scanTag position after) =
      tag position t :: marks (scan (position.after t.lexeme) rest) := by
  rw [scanTag_of_read hread]
  rfl

theorem marks_scanTag_of_read_error {position : Position} {after : List Char} {fault : Fault}
    (hread : Tag.read after = .error fault) :
    marks (scanTag position after) = [broken position fault] := by
  rw [scanTag_of_read_error hread]
  rfl

theorem position?_of_marks_scanTag {position : Position} {after : List Char} {segment : Segment}
    {more : List Segment} (h : marks (scanTag position after) = segment :: more) :
    segment.position? = some position := by
  cases hread : Tag.read after with
  | error fault =>
    rw [marks_scanTag_of_read_error hread] at h
    cases h
    rfl
  | ok pair =>
    rw [marks_scanTag_of_read hread] at h
    cases h
    rfl

theorem read_of_marks_scanTag {position here : Position} {after : List Char} {t : Tag}
    {more : List Segment} (h : marks (scanTag position after) = tag here t :: more) :
    ∃ rest, Tag.read after = .ok (t, rest) ∧ here = position ∧
      more = marks (scan (position.after t.lexeme) rest) := by
  cases hread : Tag.read after with
  | error fault =>
    rw [marks_scanTag_of_read_error hread] at h
    cases h
  | ok pair =>
    rw [marks_scanTag_of_read hread] at h
    cases h
    exact ⟨pair.2, rfl, rfl, rfl⟩

section
variable {s before after : List Char} (position : Position)
variable (hcut : Text.cut Tag.braces s = some (before, after))
include hcut

theorem marks_scan_of_slashed (hslash : backslashes before ≠ 1) :
    marks (scan position s) = marks (scanTag (position.after before) after) := by
  rw [scan_of_slashed position hcut hslash, marks_consText]

theorem marks_scan_of_unclosed (hslash : backslashes before = 1)
    (hclose : Text.cutOutside Tag.closingBraces .outside after = none) :
    marks (scan position s) = [] := by
  rw [scan_of_unclosed position hcut hslash hclose, marks_consText]
  rfl

theorem marks_scan_of_shielded (hslash : backslashes before = 1) {body rest : List Char}
    (hclose : Text.cutOutside Tag.closingBraces .outside after = some (body, rest)) :
    marks (scan position s) =
      marks (scan ((position.after before).after (inBraces body)) rest) := by
  rw [scan_of_shielded position hcut hslash hclose, marks_consText]

end

theorem marks_scan_of_cut_none {s : List Char} (position : Position)
    (hcut : Text.cut Tag.braces s = none) : marks (scan position s) = [] := by
  rw [scan_of_cut_none position hcut, marks_consText]
  rfl

/-- Marks that are the first ones of others, but for a last one that may lack its end. -/
def CutOff (marks others : List Segment) : Prop :=
  ∃ front, front <+: others ∧ (marks = front ∨
    ∃ position fault, fault.isUnfinished = true ∧ marks = front ++ [broken position fault])

theorem cutOff_nil (others : List Segment) : CutOff [] others :=
  ⟨[], List.nil_prefix, .inl rfl⟩

theorem CutOff.cons {marks others : List Segment} (h : CutOff marks others) (segment : Segment) :
    CutOff (segment :: marks) (segment :: others) := by
  obtain ⟨front, hfront, hmarks⟩ := h
  refine ⟨segment :: front, (List.prefix_cons_inj segment).mpr hfront, ?_⟩
  obtain rfl | ⟨position, fault, hfault, rfl⟩ := hmarks
  · exact .inl rfl
  · exact .inr ⟨position, fault, hfault, rfl⟩

/-- No tag looks beyond its end. -/
theorem cutOff_marks_scan (position : Position) (s more : List Char) :
    CutOff (marks (scan position s)) (marks (scan position (s ++ more))) := by
  fun_induction scan position s with
  | case1 position s hcut =>
    rw [marks_consText]
    exact cutOff_nil _
  | case2 position s before after hcut _ hslash hclose =>
    rw [marks_consText]
    exact cutOff_nil _
  | case3 position s before after hcut _ here hslash body rest hclose _ literal ih =>
    rw [marks_consText, marks_scan_of_shielded position (Text.cut_append_right hcut more) hslash
      (Text.cutOutside_append_right hclose more)]
    exact ih
  | case4 position s before after hcut _ here hslash ih =>
    rw [marks_consText, marks_scan_of_slashed position (Text.cut_append_right hcut more) hslash]
    split
    · next fault hread =>
      by_cases hfault : fault.isUnfinished = true
      · exact ⟨[], List.nil_prefix, .inr ⟨here, fault, hfault, rfl⟩⟩
      · have hmore := Tag.read_error_append_right hread (by simpa using hfault) more
        rw [marks_scanTag_of_read_error hmore]
        exact ⟨[broken here fault], List.prefix_rfl, .inl rfl⟩
    · next t rest hread =>
      rw [marks_scanTag_of_read (Tag.read_append_right hread more)]
      exact (ih t rest hread).cons (tag here t)

/-- The text `s` can stand behind a text without becoming part of a tag in it: it is empty, or
begins a tag of its own. -/
def Starts (s : List Char) : Prop :=
  s = [] ∨ ∃ after, s = Tag.braces ++ after

/-- Where a mark stands, a tag begins; and what can stand behind the text before it has no part in
the marks of that text. -/
theorem exists_starts_of_marks_scan {position : Position} {s : List Char}
    {front more : List Segment} {segment : Segment} (h : marks (scan position s) = front ++ segment :: more) :
    ∃ before after, s = before ++ (Tag.braces ++ after) ∧
      marks (scanTag (position.after before) after) = segment :: more ∧
      ∀ behind, Starts behind → marks (scan position (before ++ behind)) =
        front ++ marks (scan (position.after before) behind) := by
  induction position, s using scan.induct generalizing front with
  | case1 position s hcut =>
    rw [marks_scan_of_cut_none position hcut] at h
    simp at h
  | case2 position s before after hcut _ hslash hclose =>
    rw [marks_scan_of_unclosed position hcut hslash hclose] at h
    simp at h
  | case3 position s before after hcut _ here hslash body rest hclose _ literal =>
    rename_i ih
    rw [marks_scan_of_shielded position hcut hslash hclose] at h
    obtain ⟨before', after', rfl, hmark, hbehind⟩ := ih h
    refine ⟨before ++ inBraces body ++ before', after', ?_, ?_, fun behind hstarts => ?_⟩
    · rw [Text.append_of_cut hcut, Text.append_of_cutOutside hclose]
      simp [inBraces]
    · simpa [literal, here, inBraces] using hmark
    · have hcut' := cut_braces (Text.not_infix_of_cut hcut)
        (body ++ Tag.closingBraces ++ (before' ++ behind))
      have hclose' := Text.cutOutside_replace (by simp [Tag.closingBraces]) hclose
        (before' ++ behind)
      have hsource : before ++ inBraces body ++ before' ++ behind = before ++
          (Tag.braces ++ (body ++ Tag.closingBraces ++ (before' ++ behind))) := by
        simp [inBraces]
      rw [hsource, marks_scan_of_shielded position hcut' hslash hclose']
      simpa [literal, here, inBraces] using hbehind behind hstarts
  | case4 position s before after hcut _ here hslash =>
    rename_i ih
    have hs := Text.append_of_cut hcut
    have hfirst := Text.not_infix_of_cut hcut
    rw [marks_scan_of_slashed position hcut hslash] at h
    -- In front of the first mark there is only text.
    cases front with
    | nil =>
      refine ⟨before, after, by rw [hs, List.append_assoc], h, ?_⟩
      rintro behind (rfl | ⟨after', rfl⟩)
      · have hnone : Text.cut Tag.braces before = none :=
          Text.cut_eq_none fun hi => hfirst (hi.trans (List.prefix_append _ _).isInfix)
        rw [List.append_nil, marks_scan_of_cut_none position hnone, scan_nil]
        rfl
      · rw [marks_scan_of_slashed position (cut_braces hfirst after') hslash]
        exact congrArg marks (scan_braces here after').symm
    | cons first front =>
      cases hread : Tag.read after with
      | error fault =>
        rw [marks_scanTag_of_read_error hread] at h
        simp at h
      | ok pair =>
        obtain ⟨t, rest⟩ := pair
        rw [marks_scanTag_of_read hread] at h
        obtain ⟨rfl, htail⟩ := List.cons.inj h
        obtain ⟨before', after', rfl, hmark, hbehind⟩ := ih t rest hread htail
        obtain ⟨own, hlexeme, hown⟩ := Tag.readable_of_read hread
        refine ⟨before ++ t.lexeme ++ before', after', ?_, ?_, fun behind hstarts => ?_⟩
        · rw [hs, List.append_assoc, Tag.append_of_read hread]
          simp
        · simpa [here] using hmark
        · have hsource : before ++ t.lexeme ++ before' ++ behind =
              before ++ (Tag.braces ++ (own ++ (before' ++ behind))) := by
            simp [hlexeme]
          rw [hsource, marks_scan_of_slashed position (cut_braces hfirst _) hslash,
            marks_scanTag_of_read (hown _), hbehind behind hstarts]
          simp [here]

/-- Where a mark stands, a tag begins, and the text before it holds the marks before it, whichever
tag follows. -/
theorem exists_of_marks_scan {position : Position} {s : List Char} {front more : List Segment}
    {segment : Segment} (h : marks (scan position s) = front ++ segment :: more) :
    ∃ before after, s = before ++ (Tag.braces ++ after) ∧
      marks (scanTag (position.after before) after) = segment :: more ∧
      marks (scan position before) = front ∧
      ∀ other, marks (scan position (before ++ (Tag.braces ++ other))) =
        front ++ marks (scanTag (position.after before) other) := by
  obtain ⟨before, after, hs, hmark, hbehind⟩ := exists_starts_of_marks_scan h
  refine ⟨before, after, hs, hmark, ?_, fun other => ?_⟩
  · have hend := hbehind [] (.inl rfl)
    rw [List.append_nil, scan_nil] at hend
    rw [hend]
    exact List.append_nil front
  · rw [hbehind _ (.inr ⟨other, rfl⟩)]
    exact congrArg (front ++ marks ·) (scan_braces _ other)

end Segment

/-- The block without the statements in and before it. -/
def OpenBlock.bare (b : OpenBlock) : OpenBlock :=
  { b with main := b.main.map fun _ => .ofBody [], before := [] }

namespace Nesting

def bare (n : Nesting) : Nesting :=
  ⟨[], n.blocks.map OpenBlock.bare⟩

theorem invert_bare (n : Nesting) : n.bare.invert.map bare = n.invert.map bare := by
  obtain ⟨current, blocks⟩ := n
  cases blocks with
  | nil => rfl
  | cons b blocks =>
    obtain ⟨position, opening, main, chained, before⟩ := b
    cases main with
    | some main => rfl
    | none => simp [bare, invert, OpenBlock.bare, Except.map, Function.comp_def]

theorem close_bare (name : String) (current current' : List Statement) (blocks : List OpenBlock) :
    (close name current' (blocks.map OpenBlock.bare)).map bare =
      (close name current blocks).map bare := by
  induction blocks generalizing current current' with
  | nil => rfl
  | cons b blocks ih =>
    have hchained : b.bare.chained = b.chained := rfl
    have hname : b.bare.name = b.name := rfl
    rw [List.map_cons, close, close, hchained, hname]
    split
    · exact ih _ _
    · split
      · simp [Except.map, bare, OpenBlock.bare, Function.comp_def]
      · rfl

theorem depth_bare (n : Nesting) : n.bare.depth = n.depth := by
  simp only [depth, bare, List.countP_map]
  rfl

section
variable {n m : Nesting} (h : n.bare = m.bare)
include h

theorem enter_congr (position : Position) (opening : Opening) (chained : Bool) :
    (n.enter position opening chained).bare = (m.enter position opening chained).bare := by
  simp only [bare, mk.injEq, true_and] at h
  simp [bare, enter, h, OpenBlock.bare]

theorem invert_congr : n.invert.map bare = m.invert.map bare := by
  rw [← invert_bare n, h, invert_bare]

/-- What a tag does to the open blocks does not depend on what they hold. -/
theorem step_congr (position : Position) (d : Directive) :
    (n.step position d).map bare = (m.step position d).map bare := by
  cases d with
  | comment text => exact congrArg Except.ok h
  | mustache head args escaped => exact congrArg Except.ok h
  | embed name args => exact congrArg Except.ok h
  | opening opening =>
    have hdepth : n.depth = m.depth := by rw [← depth_bare n, h, depth_bare]
    rw [step, step, hdepth]
    split
    · rfl
    · exact congrArg Except.ok (enter_congr h position opening false)
  | otherwise => exact invert_congr h
  | chain call =>
    have hinvert := invert_congr h
    rw [step, step]
    cases hn : n.invert <;> cases hm : m.invert <;> rw [hn, hm] at hinvert
    · cases hinvert
      rfl
    · cases hinvert
    · cases hinvert
    · next inner inner' =>
      cases Opening.parse call with
      | error fault => rfl
      | ok opening =>
        have hinner : inner.bare = inner'.bare := Except.ok.inj hinvert
        exact congrArg Except.ok (enter_congr hinner position opening true)
  | closing name =>
    have hblocks : n.blocks.map OpenBlock.bare = m.blocks.map OpenBlock.bare :=
      congrArg Nesting.blocks h
    calc (close name n.current n.blocks).map bare
        = (close name [] (n.blocks.map OpenBlock.bare)).map bare := (close_bare _ _ _ _).symm
      _ = (close name [] (m.blocks.map OpenBlock.bare)).map bare := by rw [hblocks]
      _ = (close name m.current m.blocks).map bare := close_bare _ _ _ _

theorem apply_congr (position : Position) (t : Tag) :
    (n.apply position t).map bare = (m.apply position t).map bare := by
  have hplace (result : Except Fault Nesting) :
      (result.mapError fun fault => (⟨position, fault⟩ : SyntaxError)).map bare =
        (result.map bare).mapError fun fault => ⟨position, fault⟩ := by
    cases result <;> rfl
  rw [apply, apply]
  cases Directive.ofTag t with
  | error fault => rfl
  | ok d =>
    simp only
    rw [hplace, hplace, step_congr h]

/-- Texts decide neither whether segments can be read nor which blocks they leave open. -/
theorem run_marks (segments : List Segment) :
    (n.run segments).map bare = (m.run (Segment.marks segments)).map bare := by
  induction segments generalizing n m with
  | nil => exact congrArg Except.ok h
  | cons segment segments ih =>
    cases segment with
    | text run =>
      have hpush : (n.push (.content (String.ofList run))).bare = m.bare := h
      exact ih hpush
    | broken position fault => rfl
    | tag position t =>
      have happly := apply_congr h position t
      change _ = (m.run (.tag position t :: Segment.marks segments)).map bare
      rw [run, run]
      cases hn : n.apply position t <;> cases hm : m.apply position t <;> rw [hn, hm] at happly
      · cases happly
        rfl
      · cases happly
      · cases happly
      · exact ih (Except.ok.inj happly)

end

end Nesting

end Stencil.Handlebars
