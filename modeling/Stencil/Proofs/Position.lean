import Mathlib.Data.List.Induction
import Stencil.Proofs.Bytes

/-!
# Offsets and positions

The position of an offset tells the lines before it and the characters between
the last of them and the offset, and nothing else is needed to find the offset
again. Later offsets have later positions, and whatever lies beyond the end of a
text is taken for its end. An offset inside a character has no position.
-/

namespace Stencil.Text

/-- An offset between two characters, or at an end of the text. -/
def IsBoundary (s : List Char) (offset : Nat) : Prop :=
  ∃ before after, s = before ++ after ∧ offset = size before

/-- Whether every line of a text ends with its line feed. -/
def FullLines (s : List Char) : Prop :=
  ∀ c ∈ s.getLast?, c = '\n'

/-- The offset that is reached from the start over some line feeds and then some characters. -/
def walk? : Nat → Nat → List Char → Option Nat
  | 0, 0, _ => some 0
  | _, _, [] => none
  | 0, columns + 1, c :: s => (walk? 0 columns s).map (c.utf8Size + ·)
  | lines + 1, columns, c :: s =>
    (walk? (if c = '\n' then lines else lines + 1) columns s).map (c.utf8Size + ·)

namespace Position

theorem after_fullLines {lines rest : List Char} (hlines : FullLines lines) (hrest : '\n' ∉ rest) :
    start.after (lines ++ rest) = ⟨(lines ++ rest).count '\n' + 1, rest.length + 1⟩ := by
  have hkept : ∀ c ∈ rest.reverse, decide (c ≠ '\n') = true := by
    intro c hc
    rw [decide_eq_true_iff]
    rintro rfl
    exact hrest (List.mem_reverse.mp hc)
  have hstop : lines.reverse.takeWhile (· ≠ '\n') = [] := by
    rcases List.eq_nil_or_concat lines with rfl | ⟨front, c, rfl⟩
    · rfl
    · have hc : c = '\n' := hlines c (by simp)
      simp [hc]
  rw [after_start, List.reverse_append, List.takeWhile_append_of_pos hkept, hstop, List.append_nil,
    List.length_reverse]

/-- Whether a position lies on an earlier line, or in an earlier column of the same line. -/
def Precedes (p q : Position) : Prop :=
  p.line < q.line ∨ p.line = q.line ∧ p.column < q.column

instance (p q : Position) : Decidable (p.Precedes q) :=
  inferInstanceAs (Decidable (p.line < q.line ∨ p.line = q.line ∧ p.column < q.column))

theorem Precedes.trans {p q r : Position} (hpq : p.Precedes q) (hqr : q.Precedes r) :
    p.Precedes r := by
  unfold Precedes at *
  omega

theorem precedes_next (p : Position) (c : Char) : p.Precedes (p.next c) := by
  unfold next
  split
  · exact .inl (Nat.lt_succ_self p.line)
  · exact .inr ⟨rfl, Nat.lt_succ_self p.column⟩

/-- Whatever is read moves the position ahead. -/
theorem precedes_after {s : List Char} (h : s ≠ []) (p : Position) : p.Precedes (p.after s) := by
  induction s generalizing p with
  | nil => exact absurd rfl h
  | cons c s ih =>
    rw [after_cons]
    by_cases hs : s = []
    · rw [hs, after_nil]
      exact p.precedes_next c
    · exact (p.precedes_next c).trans (ih hs (p.next c))

end Position

/-- The part of a text behind its last line feed. -/
theorem exists_fullLines (s : List Char) :
    ∃ lines rest, s = lines ++ rest ∧ FullLines lines ∧ '\n' ∉ rest := by
  induction s using List.reverseRecOn with
  | nil => exact ⟨[], [], rfl, nofun, nofun⟩
  | append_singleton s c ih =>
    obtain ⟨lines, rest, rfl, hlines, hrest⟩ := ih
    by_cases hc : c = '\n'
    · refine ⟨lines ++ rest ++ [c], [], by simp, ?_, nofun⟩
      simp [FullLines, hc]
    · refine ⟨lines, rest ++ [c], by simp, hlines, ?_⟩
      simp [hrest, Ne.symm hc]

theorem walk?_columns (rest after : List Char) :
    walk? 0 rest.length (rest ++ after) = some (size rest) := by
  induction rest with
  | nil => rw [List.length_nil, walk?, size_nil]
  | cons c rest ih => rw [List.length_cons, List.cons_append, walk?, ih, Option.map_some, size_cons]

theorem FullLines.tail {c : Char} {lines : List Char} (h : FullLines (c :: lines)) :
    FullLines lines := by
  intro d hd
  apply h d
  rw [Option.mem_def] at hd ⊢
  rw [List.getLast?_cons, hd, Option.getD_some]

theorem walk?_lines {lines : List Char} (h : FullLines lines) (columns : Nat) (s : List Char) :
    walk? (lines.count '\n') columns (lines ++ s) =
      (walk? 0 columns s).map (size lines + ·) := by
  induction lines with
  | nil => simp
  | cons c lines ih =>
    have hmap : ((walk? 0 columns s).map (size lines + ·)).map (c.utf8Size + ·) =
        (walk? 0 columns s).map (size (c :: lines) + ·) := by
      simp [Function.comp_def, Nat.add_assoc]
    by_cases hc : c = '\n'
    · rw [hc, List.count_cons_self, List.cons_append, walk?, if_pos rfl, ih h.tail, ← hc, hmap]
    · -- The line that the character belongs to ends further on.
      have hmem : '\n' ∈ lines := by
        rcases List.eq_nil_or_concat lines with rfl | ⟨front, d, rfl⟩
        · exact absurd (h c rfl) hc
        · have hd : d = '\n' := h.tail d (by simp)
          simp [hd]
      obtain ⟨n, hn⟩ := Nat.exists_eq_add_one.mpr (List.count_pos_iff.mpr hmem)
      rw [List.count_cons_of_ne hc, hn, List.cons_append, walk?, if_neg hc, ← hn, ih h.tail, hmap]

/-- All of a text lies before its end, and before what lies beyond it. -/
theorem takeBytes_of_size_le {s : List Char} {offset : Nat} (h : size s ≤ offset) :
    takeBytes offset s = some s := by
  induction s generalizing offset with
  | nil => cases offset <;> rfl
  | cons c s ih =>
    rw [size_cons] at h
    have hpos := c.utf8Size_pos
    obtain ⟨n, rfl⟩ : ∃ n, offset = n + 1 := ⟨offset - 1, by omega⟩
    rw [takeBytes, if_pos (by omega), ih (by omega), Option.map_some]

theorem isBoundary_or_of_takeBytes {s before : List Char} {offset : Nat}
    (h : takeBytes offset s = some before) : IsBoundary s offset ∨ size s ≤ offset := by
  induction s generalizing offset before with
  | nil => exact .inr (Nat.zero_le offset)
  | cons c s ih =>
    cases offset with
    | zero => exact .inl ⟨[], c :: s, rfl, rfl⟩
    | succ n =>
      rw [takeBytes] at h
      split at h
      · obtain ⟨rest, hrest, -⟩ := Option.map_eq_some_iff.mp h
        rcases ih hrest with ⟨before, after, rfl, hsize⟩ | hsize
        · refine .inl ⟨c :: before, after, rfl, ?_⟩
          rw [size_cons]
          omega
        · refine .inr ?_
          rw [size_cons]
          omega
      · cases h

namespace Position

theorem ofOffset_of_size_le {s : List Char} {offset : Nat} (h : size s ≤ offset) :
    ofOffset s offset = some (start.after s) := by
  rw [ofOffset, takeBytes_of_size_le h, Option.map_some]

theorem isSome_ofOffset_iff (s : List Char) (offset : Nat) :
    (ofOffset s offset).isSome = true ↔ IsBoundary s offset ∨ size s ≤ offset := by
  constructor
  · intro h
    rw [ofOffset, Option.isSome_map] at h
    obtain ⟨before, hbefore⟩ := Option.isSome_iff_exists.mp h
    exact isBoundary_or_of_takeBytes hbefore
  · rintro (⟨before, after, rfl, rfl⟩ | h)
    · rw [ofOffset_append, Option.isSome_some]
    · rw [ofOffset_of_size_le h, Option.isSome_some]

/-- The lines before an offset, the characters between the last of them and the offset, and the way
over both of them. -/
structure Tells (p : Position) (s : List Char) (offset : Nat) : Prop where
  before : ∃ lines rest after, s = lines ++ rest ++ after ∧ offset = size (lines ++ rest) ∧
    FullLines lines ∧ '\n' ∉ rest ∧ p.line = (lines ++ rest).count '\n' + 1 ∧
    p.column = rest.length + 1
  back : walk? (p.line - 1) (p.column - 1) s = some offset

theorem exists_tells {s : List Char} {offset : Nat} (h : IsBoundary s offset) :
    ∃ p, ofOffset s offset = some p ∧ p.Tells s offset := by
  obtain ⟨before, after, rfl, rfl⟩ := h
  obtain ⟨lines, rest, rfl, hlines, hrest⟩ := exists_fullLines before
  have hcount : (lines ++ rest).count '\n' = lines.count '\n' := by
    rw [List.count_append, List.count_eq_zero.mpr hrest, Nat.add_zero]
  refine ⟨_, ofOffset_append _ _, ⟨lines, rest, after, rfl, rfl, hlines, hrest, ?_, ?_⟩, ?_⟩
  · rw [after_fullLines hlines hrest]
  · rw [after_fullLines hlines hrest]
  · rw [after_fullLines hlines hrest, Nat.add_sub_cancel, Nat.add_sub_cancel, hcount,
      List.append_assoc, walk?_lines hlines, walk?_columns, Option.map_some, size_append]

/-- A later offset has a later position. -/
theorem precedes_of_lt {s : List Char} {first second : Nat} (hfirst : IsBoundary s first)
    (hsecond : IsBoundary s second) (h : first < second) :
    ∃ p q, ofOffset s first = some p ∧ ofOffset s second = some q ∧ p.Precedes q := by
  obtain ⟨before, after, rfl, rfl⟩ := hfirst
  obtain ⟨longer, rest, hs, rfl⟩ := hsecond
  have hposition := ofOffset_append longer rest
  rw [← hs] at hposition
  refine ⟨_, _, ofOffset_append before after, hposition, ?_⟩
  rcases List.append_eq_append_iff.mp hs with ⟨part, rfl, -⟩ | ⟨part, rfl, -⟩
  · have hne : part ≠ [] := by
      rintro rfl
      simp at h
    rw [after_append]
    exact precedes_after hne _
  · rw [size_append] at h
    omega

/-- An offset between two characters of a text has a position that tells what lies before it and
leads back to it, and later offsets have later positions. Beyond the end all offsets stand for the
end, and inside a character there is no position. -/

theorem ofOffset_identifies (s : List Char) :
    (∀ offset, (ofOffset s offset).isSome = true ↔ IsBoundary s offset ∨ size s ≤ offset) ∧
    (∀ offset, IsBoundary s offset → ∃ p, ofOffset s offset = some p ∧ p.Tells s offset) ∧
    (∀ first second, IsBoundary s first → IsBoundary s second → first < second →
      ∃ p q, ofOffset s first = some p ∧ ofOffset s second = some q ∧ p.Precedes q) ∧
    ∀ offset, size s ≤ offset → ofOffset s offset = ofOffset s (size s) := by
  refine ⟨isSome_ofOffset_iff s, fun _ => exists_tells, fun _ _ => precedes_of_lt, ?_⟩
  intro offset h
  rw [ofOffset_of_size_le h, ofOffset_of_size_le (Nat.le_refl _)]

/-- A line of one wide character, an empty one and a last one without a line feed. -/
def threeLines : List Char := "é\n\nab".toList

/-- The wide character takes two bytes and one column, and the offset inside it has no position. -/
theorem ofOffset_identifies_threeLines :
    ofOffset threeLines 1 = none ∧ IsBoundary threeLines 3 ∧ IsBoundary threeLines 5 ∧
      (∃ p, ofOffset threeLines 5 = some p ∧ p.Tells threeLines 5) ∧
      (∃ p q, ofOffset threeLines 3 = some p ∧ ofOffset threeLines 5 = some q ∧ p.Precedes q) ∧
      ofOffset threeLines 5 = some ⟨3, 2⟩ ∧ walk? 2 1 threeLines = some 5 ∧
      ofOffset threeLines 9 = ofOffset threeLines (size threeLines) := by
  have hline : IsBoundary threeLines 3 := ⟨['é', '\n'], ['\n', 'a', 'b'], by decide, by decide⟩
  have hlast : IsBoundary threeLines 5 := ⟨['é', '\n', '\n', 'a'], ['b'], by decide, by decide⟩
  obtain ⟨-, htells, hordered, hend⟩ := ofOffset_identifies threeLines
  exact ⟨by decide, hline, hlast, htells 5 hlast, hordered 3 5 hline hlast (by decide),
    by decide, by decide, hend 9 (by decide)⟩

end Position
end Stencil.Text
