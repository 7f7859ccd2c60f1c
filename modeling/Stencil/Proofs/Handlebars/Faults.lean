import Mathlib.Data.List.Induction
import Stencil.Proofs.Handlebars.Marks
import Stencil.Proofs.Handlebars.Strings

/-!
# Where templates are refused

A template that cannot be read is refused at its first offending tag. If blocks
are left open, that is the opening tag of the outermost one. Otherwise the text
before the tag could be read if its blocks were closed, and unless the tag has
not ended, nothing that follows can mend the fault.
-/

namespace Stencil.Text

/-- Every text ends at an offset of whatever it is a part of. -/
theorem exists_takeBytes (before : List Char) :
    ∃ offset, ∀ after, takeBytes offset (before ++ after) = some before := by
  induction before with
  | nil => exact ⟨0, fun after => by simp [takeBytes]⟩
  | cons c before ih =>
    obtain ⟨offset, hoffset⟩ := ih
    obtain ⟨size, hsize⟩ := Nat.exists_eq_add_one.mpr c.utf8Size_pos
    refine ⟨offset + size + 1, fun after => ?_⟩
    have hrest : offset + size + 1 - c.utf8Size = offset := by omega
    rw [List.cons_append, takeBytes, if_pos (by omega), hrest, hoffset]
    rfl

end Stencil.Text

namespace Stencil.Handlebars

open Text (Position)

theorem Grounded.chained_eq_false {blocks : List OpenBlock} {b : OpenBlock}
    (h : Grounded blocks) (hb : blocks.getLast? = some b) : b.chained = false := by
  induction blocks with
  | nil => cases hb
  | cons first blocks ih =>
    cases blocks with
    | nil =>
      cases hb
      exact Bool.eq_false_iff.mpr fun hchained => h.1 hchained rfl
    | cons second blocks => exact ih h.2 (by rwa [List.getLast?_cons_cons] at hb)

namespace Nesting

/-- The opening tag of the outermost open block, and where it stands. -/
def outermost? (n : Nesting) : Option (Position × Opening) :=
  n.blocks.getLast?.map fun b => (b.position, b.opening)

theorem outermost?_bare (n : Nesting) : n.bare.outermost? = n.outermost? := by
  rw [outermost?, bare, List.getLast?_map, Option.map_map]
  rfl

/-- The error that the end of a template gives rise to, if there is one. -/
def unclosed? (n : Nesting) : Option SyntaxError :=
  n.outermost?.map fun (position, opening) =>
    ⟨position, .unclosedBlock opening.helper.spelling⟩

theorem finish_eq {n : Nesting} (h : Grounded n.blocks) :
    n.finish = match n.unclosed? with
      | some e => .error e
      | none => .ok (.ofBody n.current.reverse) := by
  rw [finish, unclosed?, outermost?, ← List.head?_reverse]
  cases hblocks : n.blocks.reverse with
  | nil => rfl
  | cons b blocks =>
    have hlast : n.blocks.getLast? = some b := by rw [← List.head?_reverse, hblocks]; rfl
    rw [List.find?_cons_of_pos (by simp [h.chained_eq_false hlast])]
    rfl

end Nesting

namespace Nesting

/-- Only the innermost blocks are closed. -/
theorem suffix_of_close {name : String} {current : List Statement} {blocks : List OpenBlock}
    {m : Nesting} (h : close name current blocks = .ok m) : m.blocks <:+ blocks := by
  induction blocks generalizing current with
  | nil => cases h
  | cons b blocks ih =>
    rw [close] at h
    split at h
    · exact (ih h).trans (List.suffix_cons b blocks)
    · split at h
      · cases h
        exact List.suffix_cons b blocks
      · cases h

theorem outermost?_enter (n : Nesting) (position : Position) (opening : Opening) (chained : Bool) :
    (n.enter position opening chained).outermost? =
      some (n.outermost?.getD (position, opening)) := by
  obtain ⟨current, blocks⟩ := n
  cases blocks with
  | nil => rfl
  | cons b blocks => simp [enter, outermost?, List.getLast?_cons]

theorem outermost?_invert {n m : Nesting} (h : n.invert = .ok m) :
    m.outermost? = n.outermost? ∧ n.outermost?.isSome = true := by
  obtain ⟨b, blocks, hblocks, hmain, rfl⟩ := invert_eq_ok.mp h
  simp only [outermost?, hblocks]
  cases blocks with
  | nil => exact ⟨rfl, rfl⟩
  | cons outer blocks => simp [List.getLast?_cons]

/-- A tag leaves the outermost block as it is, closes it, or opens it. -/
theorem outermost?_step {n m : Nesting} {position : Position} {d : Directive}
    (h : n.step position d = .ok m) :
    m.outermost? = n.outermost? ∨ m.outermost? = none ∨
      n.outermost? = none ∧ ∃ opening, d = .opening opening ∧
        m.outermost? = some (position, opening) := by
  cases d with
  | comment text => cases h; exact .inl rfl
  | mustache head args escaped => cases h; exact .inl rfl
  | embed name args => cases h; exact .inl rfl
  | opening opening =>
    obtain ⟨-, rfl⟩ := step_opening_eq_ok.mp h
    rw [outermost?_enter]
    cases houter : n.outermost? with
    | none => exact .inr (.inr ⟨rfl, opening, rfl, rfl⟩)
    | some outer => exact .inl rfl
  | otherwise => exact .inl (outermost?_invert h).1
  | chain call =>
    obtain ⟨inner, opening, hinvert, -, rfl⟩ := step_chain_eq_ok.mp h
    obtain ⟨hsame, hsome⟩ := outermost?_invert hinvert
    obtain ⟨outer, houter⟩ := Option.isSome_iff_exists.mp hsome
    rw [outermost?_enter, hsame, houter]
    exact .inl rfl
  | closing name =>
    obtain ⟨closed, hclosed⟩ := suffix_of_close h
    cases hblocks : m.blocks with
    | nil => exact .inr (.inl (by rw [outermost?, hblocks]; rfl))
    | cons b blocks =>
      refine .inl ?_
      rw [outermost?, outermost?, ← hclosed, List.getLast?_append, hblocks, List.getLast?_cons]
      rfl

/-- A tag among the segments opens a block while none is open, and the block stays open. -/
def HoldsOpen (segments : List Segment) (position : Position) (opening : Opening) : Prop :=
  ∃ front t more closed, segments = front ++ .tag position t :: more ∧
    Directive.ofTag t = .ok (.opening opening) ∧
    run {} front = .ok closed ∧ closed.outermost? = none ∧
    ∀ part, part <+: more → ∃ m, run {} (front ++ .tag position t :: part) = .ok m ∧
      m.outermost? = some (position, opening)

/-- One more segment leaves the block open. -/
theorem HoldsOpen.append_singleton {n : Nesting} {segments : List Segment} {segment : Segment}
    {position : Position} {opening : Opening} (h : HoldsOpen segments position opening)
    (hrun : run {} (segments ++ [segment]) = .ok n)
    (hn : n.outermost? = some (position, opening)) :
    HoldsOpen (segments ++ [segment]) position opening := by
  obtain ⟨front, t, more, closed, rfl, ht, hfront, hclosed, hstays⟩ := h
  refine ⟨front, t, more ++ [segment], closed, by simp, ht, hfront, hclosed, fun part hpart => ?_⟩
  obtain rfl | hpart := List.prefix_concat_iff.mp hpart
  · exact ⟨n, by simpa using hrun, hn⟩
  · exact hstays part hpart

/-- The outermost open block has been open since its opening tag. -/
theorem holdsOpen_of_run {n : Nesting} {segments : List Segment} {position : Position}
    {opening : Opening} (hrun : run {} segments = .ok n)
    (hn : n.outermost? = some (position, opening)) : HoldsOpen segments position opening := by
  induction segments using List.reverseRecOn generalizing n with
  | nil =>
    cases hrun
    cases hn
  | append_singleton segments segment ih =>
    obtain ⟨before, hbefore, hlast⟩ := exists_of_run_append hrun
    cases segment with
    | text run =>
      cases hlast
      exact (ih hbefore hn).append_singleton hrun hn
    | broken here fault => cases hlast
    | tag here t =>
      obtain ⟨next, happly, hnext⟩ := run_tag_eq_ok hlast
      cases hnext
      obtain ⟨d, hd, hstep⟩ := apply_eq_ok.mp happly
      obtain hsame | hnone | ⟨hnone, other, rfl, hother⟩ := outermost?_step hstep
      · exact (ih hbefore (hsame.symm.trans hn)).append_singleton hrun hn
      · rw [hnone] at hn
        cases hn
      · rw [hother] at hn
        cases hn
        refine ⟨segments, t, [], before, rfl, hd, hbefore, hnone, fun part hpart => ?_⟩
        cases List.prefix_nil.mp hpart
        exact ⟨n, hrun, hother⟩

theorem position_of_apply {n : Nesting} {position : Position} {t : Tag} {e : SyntaxError}
    (h : n.apply position t = .error e) : e.position = position := by
  unfold apply at h
  split at h
  · cases h
    rfl
  · next d hd =>
    cases hstep : n.step position d <;> rw [hstep] at h <;> cases h
    rfl

/-- The first segment that cannot be read tells where. -/
theorem exists_of_run_error {n : Nesting} {segments : List Segment} {e : SyntaxError}
    (h : n.run segments = .error e) :
    ∃ front segment more m, segments = front ++ segment :: more ∧ n.run front = .ok m ∧
      segment.position? = some e.position := by
  induction segments generalizing n with
  | nil => cases h
  | cons segment segments ih =>
    cases segment with
    | text run =>
      obtain ⟨front, segment, more, m, rfl, hfront, hposition⟩ := ih h
      exact ⟨.text run :: front, segment, more, m, rfl, hfront, hposition⟩
    | broken position fault =>
      cases h
      exact ⟨[], _, segments, n, rfl, rfl, rfl⟩
    | tag position t =>
      cases happly : n.apply position t with
      | error e' =>
        rw [run, happly] at h
        cases h
        exact ⟨[], _, segments, n, rfl, rfl, congrArg some (position_of_apply happly).symm⟩
      | ok next =>
        rw [run, happly] at h
        obtain ⟨front, segment, more, m, rfl, hfront, hposition⟩ := ih h
        refine ⟨.tag position t :: front, segment, more, m, rfl, ?_, hposition⟩
        rw [run, happly]
        exact hfront

end Nesting

def Segment.error? (segments : List Segment) : Option SyntaxError :=
  match Nesting.run {} segments with
  | .error e => some e
  | .ok n => n.unclosed?

namespace Segment

section
variable {segments : List Segment} {n : Nesting}

theorem error?_of_run_error {e : SyntaxError} (hrun : Nesting.run {} segments = .error e) :
    error? segments = some e := by
  rw [error?, hrun]

theorem error?_of_closed (hrun : Nesting.run {} segments = .ok n) (hn : n.outermost? = none) :
    error? segments = none := by
  rw [error?, hrun]
  simp [Nesting.unclosed?, hn]

theorem error?_of_open {position : Position} {opening : Opening}
    (hrun : Nesting.run {} segments = .ok n) (hn : n.outermost? = some (position, opening)) :
    error? segments = some ⟨position, .unclosedBlock opening.helper.spelling⟩ := by
  rw [error?, hrun]
  simp [Nesting.unclosed?, hn]

end

theorem error?_marks (segments : List Segment) : error? (marks segments) = error? segments := by
  have hrun := Nesting.run_marks (n := {}) (m := {}) rfl segments
  rw [error?, error?]
  cases hn : Nesting.run {} segments <;> cases hm : Nesting.run {} (marks segments) <;>
    rw [hn, hm] at hrun
  · cases hrun
    rfl
  · cases hrun
  · cases hrun
  · next n m =>
    have hbare : n.bare = m.bare := Except.ok.inj hrun
    simp only [Nesting.unclosed?]
    rw [← n.outermost?_bare, hbare, m.outermost?_bare]

end Segment

namespace Program

/-- A template is refused for what its marks are refused for. -/
theorem ofText_eq_error_iff {s : List Char} {e : SyntaxError} :
    ofText s = .error e ↔ Segment.error? (Segment.marks (Segment.scan .start s)) = some e := by
  have hmarks : Segment.error? (Segment.marks (Segment.scan .start s)) =
      Segment.error? (Segment.ofSource s) := by
    rw [← Segment.marks_tidy false, Segment.error?_marks, Segment.ofSource]
  rw [hmarks, ofText, Segment.error?]
  cases hrun : Nesting.run {} (Segment.ofSource s) with
  | error e' => simp
  | ok n =>
    simp only [Nesting.finish_eq (Nesting.run_grounded hrun trivial)]
    cases n.unclosed? <;> simp

theorem exists_ofText_eq_ok_iff {s : List Char} :
    (∃ p, ofText s = .ok p) ↔ Segment.error? (Segment.marks (Segment.scan .start s)) = none := by
  rw [Option.eq_none_iff_forall_ne_some]
  constructor
  · rintro ⟨p, hp⟩ e he
    rw [ofText_eq_error_iff.mpr he] at hp
    cases hp
  · intro h
    cases hread : ofText s with
    | error e => exact absurd (ofText_eq_error_iff.mp hread) (h e)
    | ok p => exact ⟨p, rfl⟩

open Segment (marks scan marks_scanTag_of_read cutOff_marks_scan exists_of_marks_scan
  read_of_marks_scanTag position?_of_marks_scanTag met_marks_iff met_scan)

/-- A template without a fault in its tags can be read, but for blocks that it leaves open. -/
theorem ofText_of_run {s : List Char} {n : Nesting}
    (hrun : Nesting.run {} (marks (scan .start s)) = .ok n) :
    (∃ p, ofText s = .ok p) ∨
      ∃ position name, ofText s = .error ⟨position, .unclosedBlock name⟩ := by
  cases hopen : n.outermost? with
  | none => exact .inl (exists_ofText_eq_ok_iff.mpr (Segment.error?_of_closed hrun hopen))
  | some outer => exact .inr ⟨_, _, ofText_eq_error_iff.mpr (Segment.error?_of_open hrun hopen)⟩

/-- Nothing behind a tag that has ended can mend its fault. -/
theorem ofText_append_of_run_error {s : List Char} {e : SyntaxError}
    (hrun : Nesting.run {} (marks (scan .start s)) = .error e)
    (hfault : e.fault.isUnfinished = false) (more : List Char) :
    ofText (s ++ more) = .error e := by
  obtain ⟨front, ⟨rest, hrest⟩, hmarks⟩ := cutOff_marks_scan .start s more
  have hfront : Nesting.run {} front = .error e := by
    obtain hmarks | ⟨position, fault, hunfinished, hmarks⟩ := hmarks
    · rwa [hmarks] at hrun
    · rw [hmarks, Nesting.run_append] at hrun
      cases hread : Nesting.run {} front with
      | error e' =>
        rw [hread] at hrun
        exact hrun
      | ok n =>
        rw [hread] at hrun
        cases hrun
        rw [hunfinished] at hfault
        cases hfault
  refine ofText_eq_error_iff.mpr (Segment.error?_of_run_error ?_)
  rw [← hrest, Nesting.run_append, hfront]
  rfl

/-- The tag that `after` continues opens a block that stands in no other one and stays open: where
the template is cut off behind the tag, the error is the same, unless it is that of a tag without an
end. -/

structure LeftOpen (before after : List Char) (e : SyntaxError) : Prop where
  outermost : ∃ p, ofText before = .ok p
  opened : ∃ t rest opening, Tag.read after = .ok (t, rest) ∧
    Directive.ofTag t = .ok (.opening opening) ∧
    e.fault = .unclosedBlock opening.helper.spelling ∧
    ∀ middle, middle <+: rest → ofText (before ++ t.lexeme ++ middle) = .error e ∨
      ∃ position fault, fault.isUnfinished = true ∧
        ofText (before ++ t.lexeme ++ middle) = .error ⟨position, fault⟩

theorem exists_leftOpen {s : List Char} {n : Nesting} {e : SyntaxError}
    (hrun : Nesting.run {} (marks (scan .start s)) = .ok n) (hn : n.unclosed? = some e) :
    ∃ before after, s = before ++ (Tag.braces ++ after) ∧
      e.position = Position.start.after before ∧ LeftOpen before after e := by
  obtain ⟨⟨position, opening⟩, houter, rfl⟩ := Option.map_eq_some_iff.mp hn
  obtain ⟨front, t, more, closed, hmarks, ht, hfront, hclosed, hstays⟩ :=
    Nesting.holdsOpen_of_run hrun houter
  obtain ⟨before, after, hs, hmark, hbefore, hbehind⟩ := exists_of_marks_scan hmarks
  obtain ⟨rest, hread, rfl, rfl⟩ := read_of_marks_scanTag hmark
  obtain ⟨own, hlexeme, hown⟩ := Tag.readable_of_read hread
  refine ⟨before, after, hs, rfl, ?_, t, rest, opening, hread, ht, rfl, ?_⟩
  · exact exists_ofText_eq_ok_iff.mpr (Segment.error?_of_closed (hbefore ▸ hfront) hclosed)
  · rintro middle ⟨remaining, rfl⟩
    have hpart := hbehind (own ++ middle)
    rw [marks_scanTag_of_read (hown middle), ← List.append_assoc Tag.braces, ← hlexeme,
      ← List.append_assoc] at hpart
    obtain ⟨part, hprefix, hcut⟩ :=
      cutOff_marks_scan ((Position.start.after before).after t.lexeme) middle remaining
    obtain ⟨m, hm, hopen⟩ := hstays part hprefix
    obtain hcut | ⟨position, fault, hfault, hcut⟩ := hcut
    · rw [hcut] at hpart
      exact .inl (ofText_eq_error_iff.mpr (Segment.error?_of_open (hpart ▸ hm) hopen))
    · refine .inr ⟨position, fault, hfault,
        ofText_eq_error_iff.mpr (Segment.error?_of_run_error ?_)⟩
      rw [hpart, hcut, ← List.cons_append, ← List.append_assoc, Nesting.run_append, hm]
      rfl

/-- How the error of a template is found at the tag behind `before`, which `after` continues. -/
structure FoundAt (e : SyntaxError) (before after : List Char) : Prop where
  position : e.position =
    ⟨before.count '\n' + 1, (before.reverse.takeWhile (· ≠ '\n')).length + 1⟩
  /-- A block that is left open is reported where the outermost one is opened. -/
  outermost : (∃ name, e.fault = .unclosedBlock name) → LeftOpen before after e
  /-- Any other fault is the first one. -/
  first : (∀ name, e.fault ≠ .unclosedBlock name) → (∃ p, ofText before = .ok p) ∨
    ∃ position name, ofText before = .error ⟨position, .unclosedBlock name⟩
  /-- What follows cannot mend it if the tag has ended. -/
  lasting : (∀ name, e.fault ≠ .unclosedBlock name) → e.fault.isUnfinished = false →
    ∀ more, ofText (before ++ Tag.braces ++ after ++ more) = .error e

/-- The error of a template points at a tag: at the one that opens the outermost block, if blocks
are left open, and otherwise at the first one at fault. -/
theorem ofText_error_at_tag {source : List Char} {e : SyntaxError}
    (h : ofText source = .error e) :
    ∃ offset before after, Text.takeBytes offset source = some before ∧
      source = before ++ Tag.braces ++ after ∧
      Position.ofOffset source offset = some e.position ∧ FoundAt e before after := by
  suffices hfound : ∃ before after, source = before ++ Tag.braces ++ after ∧
      FoundAt e before after by
    obtain ⟨before, after, rfl, hfound⟩ := hfound
    obtain ⟨offset, hoffset⟩ := Text.exists_takeBytes before
    have hbytes : Text.takeBytes offset (before ++ Tag.braces ++ after) = some before := by
      rw [List.append_assoc, hoffset]
    refine ⟨offset, before, after, hbytes, rfl, ?_, hfound⟩
    rw [Position.ofOffset, hbytes, Option.map_some, Position.after_start, hfound.position]
  have herror := ofText_eq_error_iff.mp h
  rw [Segment.error?] at herror
  cases hrun : Nesting.run {} (marks (scan .start source)) with
  | error e' =>
    rw [hrun] at herror
    cases herror
    have hnative := Nesting.run_not_foreign (met_marks_iff.mpr (met_scan .start source)) hrun
    obtain ⟨front, segment, more, m, hmarks, hfront, hposition⟩ := Nesting.exists_of_run_error hrun
    obtain ⟨before, after, hs, hmark, hbefore, -⟩ := exists_of_marks_scan hmarks
    have hhere : e.position = Position.start.after before :=
      Option.some.inj (hposition.symm.trans (position?_of_marks_scanTag hmark))
    rw [← List.append_assoc] at hs
    refine ⟨before, after, hs, hhere.trans (Position.after_start before), fun ⟨name, hname⟩ => ?_,
      fun _ => ofText_of_run (hbefore ▸ hfront), fun _ => ?_⟩
    · rw [hname] at hnative
      cases hnative
    · exact hs ▸ ofText_append_of_run_error hrun
  | ok n =>
    rw [hrun] at herror
    obtain ⟨before, after, hs, hhere, hopen⟩ := exists_leftOpen hrun herror
    obtain ⟨t, rest, opening, -, -, hfault, -⟩ := hopen.opened
    exact ⟨before, after, by rw [hs, List.append_assoc],
      hhere.trans (Position.after_start before), fun _ => hopen,
      fun hother => absurd hfault (hother _), fun hother => absurd hfault (hother _)⟩

/-- A closing tag on the second line that repeats another name than that of its block. -/
def crossedSource : List Char :=
  "a\n\x7b\x7b#if b\x7d\x7d\x7b\x7b/each\x7d\x7d".toList

/-- Two blocks are left open, one in the other. -/
def openSource : List Char :=
  "é \x7b\x7b#if b\x7d\x7d\\\x7b\x7b/if\x7d\x7d\n\x7b\x7b#each c\x7d\x7d".toList

theorem ofText_error_at_tag_crossedSource :
    (∃ before after, crossedSource = before ++ Tag.braces ++ after ∧
      FoundAt ⟨⟨2, 10⟩, .mismatchedClose "if" "each"⟩ before after) ∧
    (∀ more, ofText (crossedSource ++ more) = .error ⟨⟨2, 10⟩, .mismatchedClose "if" "each"⟩) ∧
    ∃ before after, openSource = before ++ Tag.braces ++ after ∧
      LeftOpen before after ⟨⟨1, 3⟩, .unclosedBlock "if"⟩ := by
  have hcrossed : ofText crossedSource = .error ⟨⟨2, 10⟩, .mismatchedClose "if" "each"⟩ :=
    ofText_eq_error_iff.mpr (by decide +kernel)
  have hopen : ofText openSource = .error ⟨⟨1, 3⟩, .unclosedBlock "if"⟩ :=
    ofText_eq_error_iff.mpr (by decide +kernel)
  obtain ⟨-, before, after, -, hsplit, -, hfound⟩ := ofText_error_at_tag hcrossed
  obtain ⟨-, first, second, -, hsplit', -, hleft⟩ := ofText_error_at_tag hopen
  exact ⟨⟨before, after, hsplit, hfound⟩, hsplit ▸ hfound.lasting nofun rfl, first, second,
    hsplit', hleft.outermost ⟨_, rfl⟩⟩

end Program

end Stencil.Handlebars
