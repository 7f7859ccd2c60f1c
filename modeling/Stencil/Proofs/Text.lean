import Stencil.Text.Blank
import Stencil.Text.Split

/-!
# Quoting, trimming and cutting

What the readers of texts do on texts of a known shape: a text whose closing
braces are all quoted hides them from the quote-aware cut, a text with firm ends
is left alone by trimming, and a mark is found at the place it was put.
-/

namespace Stencil.Text

namespace Quoting

def after (place : Quoting) (s : List Char) : Quoting :=
  s.foldl next place

theorem after_append (place : Quoting) (s t : List Char) :
    place.after (s ++ t) = (place.after s).after t := by
  simp [after]

theorem after_cons (place : Quoting) (c : Char) (s : List Char) :
    place.after (c :: s) = (place.next c).after s := rfl

/-- A string is opened by a quote. -/
def Proper : Quoting → Prop
  | outside => True
  | inside quote => isQuote quote = true
  | backslash quote => isQuote quote = true

theorem Proper.next {place : Quoting} (h : place.Proper) (c : Char) : (place.next c).Proper := by
  unfold Quoting.next
  grind [Proper]

theorem Proper.after {place : Quoting} (h : place.Proper) (s : List Char) :
    (place.after s).Proper := by
  induction s generalizing place with
  | nil => exact h
  | cons c s ih => exact ih (h.next c)

/-- Only a quote leads out of a string. -/
theorem Proper.next_eq_outside_iff {place : Quoting} (h : place.Proper) {c : Char}
    (hc : isQuote c = false) : place.next c = .outside ↔ place = .outside := by
  have hne {quote : Char} (hquote : isQuote quote = true) : c ≠ quote := by
    rintro rfl
    rw [hc] at hquote
    cases hquote
  cases place with
  | outside => simp [Quoting.next, hc]
  | inside quote =>
    simp only [Quoting.next, if_neg (hne h)]
    split <;> simp
  | backslash quote =>
    simp only [Quoting.next]
    split <;> simp

theorem Proper.after_eq_outside_iff {place : Quoting} (h : place.Proper) {s : List Char}
    (hs : ∀ c ∈ s, isQuote c = false) : place.after s = .outside ↔ place = .outside := by
  induction s generalizing place with
  | nil => rfl
  | cons c s ih =>
    obtain ⟨hc, hs⟩ := List.forall_mem_cons.mp hs
    rw [after_cons, ih (h.next c) hs, h.next_eq_outside_iff hc]

end Quoting

/-- Every string in the text is closed. -/
def Closed (s : List Char) : Prop :=
  Quoting.outside.after s = .outside

instance (s : List Char) : Decidable (Closed s) :=
  inferInstanceAs (Decidable (_ = _))

theorem Quoting.proper_outside : Quoting.outside.Proper := trivial

theorem proper_after (s : List Char) : (Quoting.outside.after s).Proper :=
  Quoting.proper_outside.after s

theorem closed_of_not_quote {s : List Char} (hs : ∀ c ∈ s, isQuote c = false) : Closed s :=
  (Quoting.proper_outside.after_eq_outside_iff hs).mpr rfl

theorem closed_append_left {s : List Char} (hs : ∀ c ∈ s, isQuote c = false) (t : List Char) :
    Closed (s ++ t) ↔ Closed t := by
  rw [Closed, Quoting.after_append, show Quoting.outside.after s = .outside from
    closed_of_not_quote hs, Closed]

theorem closed_append_right {t : List Char} (ht : ∀ c ∈ t, isQuote c = false) (s : List Char) :
    Closed (s ++ t) ↔ Closed s := by
  rw [Closed, Quoting.after_append, (proper_after s).after_eq_outside_iff ht, Closed]

theorem not_quote_of_blank {c : Char} (h : isBlank c = true) : isQuote c = false := by
  rw [isQuote, Bool.or_eq_false_iff, beq_eq_false_iff_ne, beq_eq_false_iff_ne]
  constructor <;> (rintro rfl; revert h; decide)

theorem closed_trimStart (s : List Char) : Closed (trimStart s) ↔ Closed s := by
  have hblanks : ∀ c ∈ s.takeWhile isBlank, isQuote c = false := fun c hc =>
    not_quote_of_blank (List.all_eq_true.mp List.all_takeWhile c hc)
  conv => rhs; rw [← List.takeWhile_append_dropWhile (p := isBlank) (l := s)]
  exact (closed_append_left hblanks _).symm

theorem closed_trimEnd (s : List Char) : Closed (trimEnd s) ↔ Closed s := by
  have hblanks : ∀ c ∈ (s.reverse.takeWhile isBlank).reverse, isQuote c = false := fun c hc =>
    not_quote_of_blank (List.all_eq_true.mp List.all_takeWhile c (List.mem_reverse.mp hc))
  have hsplit : s = trimEnd s ++ (s.reverse.takeWhile isBlank).reverse := by
    rw [trimEnd, ← List.reverse_append, List.takeWhile_append_dropWhile, List.reverse_reverse]
  conv => rhs; rw [hsplit]
  exact (closed_append_right hblanks _).symm

/-- Blanks at the ends are no part of a string. -/
theorem closed_trim (s : List Char) : Closed (trim s) ↔ Closed s := by
  rw [trim, closed_trimEnd, closed_trimStart]

/-- No closing brace stands outside the quoted strings. -/
def Shielded : Quoting → List Char → Prop
  | _, [] => True
  | place, c :: s => (place = .outside → c ≠ '}') ∧ Shielded (place.next c) s

theorem shielded_append {place : Quoting} {s t : List Char} :
    Shielded place (s ++ t) ↔ Shielded place s ∧ Shielded (place.after s) t := by
  induction s generalizing place with
  | nil => simp [Shielded, Quoting.after]
  | cons c s ih => simp [Shielded, ih, Quoting.after, and_assoc]

theorem behind?_self_append (mark rest : List Char) : behind? mark (mark ++ rest) = some rest := by
  induction mark with
  | nil => rfl
  | cons m mark ih => rw [List.cons_append, behind?, if_pos rfl, ih]

theorem behind?_eq_none_iff {mark s : List Char} : behind? mark s = none ↔ ¬ mark <+: s := by
  constructor
  · rintro h ⟨rest, rfl⟩
    rw [behind?_self_append] at h
    cases h
  · intro h
    cases hb : behind? mark s with
    | none => rfl
    | some rest => exact absurd ⟨rest, (eq_append_of_behind? hb).symm⟩ h

/-- A text in which no mark begins outside of strings, whatever is taken off its front, does not
change which mark behind it is the first one. -/
theorem cutOutside_append_left {mark s t : List Char} {place : Quoting}
    (h : ∀ u v, s = u ++ v → v ≠ [] → place.after u = .outside → ¬ mark <+: v ++ t) :
    cutOutside mark place (s ++ t) =
      (cutOutside mark (place.after s) t).map fun (before, after) => (s ++ before, after) := by
  induction s generalizing place with
  | nil => simp [Quoting.after]
  | cons c s ih =>
    have hfirst : (if place = .outside then behind? mark (c :: (s ++ t)) else none) = none := by
      split
      · next hplace =>
        exact behind?_eq_none_iff.mpr (h [] (c :: s) rfl (List.cons_ne_nil c s) hplace)
      · rfl
    have hrest : cutOutside mark (place.next c) (s ++ t) = _ := ih fun u v hs hv hu =>
      h (c :: u) v (by rw [hs, List.cons_append]) hv hu
    rw [List.cons_append, cutOutside, hfirst, hrest, Quoting.after_cons]
    simp [Function.comp_def]

theorem not_prefix_of_shielded {place : Quoting} {s u v : List Char} (h : Shielded place s)
    (hs : s = u ++ v) (hv : v ≠ []) (hu : place.after u = .outside) (mark t : List Char) :
    ¬ '}' :: mark <+: v ++ t := by
  obtain ⟨c, v, rfl⟩ := List.exists_cons_of_ne_nil hv
  rw [hs, shielded_append] at h
  rw [List.cons_append, List.cons_prefix_cons]
  rintro ⟨rfl, -⟩
  exact h.2.1 hu rfl

/-- The first closing braces behind a shielded text are the ones that end it. -/
theorem cutOutside_of_shielded {place : Quoting} {s : List Char} (h : Shielded place s)
    (hend : place.after s = .outside) (mark rest : List Char) :
    cutOutside ('}' :: mark) place (s ++ '}' :: mark ++ rest) = some (s, rest) := by
  rw [List.append_assoc, cutOutside_append_left fun u v hs hv hu =>
    not_prefix_of_shielded h hs hv hu mark _, hend]
  simp [cutOutside, behind?, behind?_self_append]

/-- A text with complete strings and no closing brace outside them. -/
structure Sealed (s : List Char) : Prop where
  shielded : Shielded .outside s
  closed : Quoting.outside.after s = .outside

theorem Sealed.append {s t : List Char} (hs : Sealed s) (ht : Sealed t) : Sealed (s ++ t) where
  shielded := shielded_append.2 ⟨hs.shielded, hs.closed.symm ▸ ht.shielded⟩
  closed := by rw [Quoting.after_append, hs.closed, ht.closed]

theorem sealed_nil : Sealed [] := ⟨trivial, rfl⟩

theorem sealed_singleton {c : Char} (hq : isQuote c = false) (hb : c ≠ '}') : Sealed [c] :=
  ⟨⟨fun _ => hb, trivial⟩, by simp [Quoting.after, Quoting.next, hq]⟩

theorem sealed_cons {c : Char} {s : List Char} (hq : isQuote c = false) (hb : c ≠ '}')
    (hs : Sealed s) : Sealed (c :: s) :=
  (sealed_singleton hq hb).append hs

theorem sealed_of_plain {s : List Char} (h : ∀ c ∈ s, isQuote c = false ∧ c ≠ '}') :
    Sealed s := by
  induction s with
  | nil => exact sealed_nil
  | cons c s ih =>
    obtain ⟨hq, hb⟩ := h c List.mem_cons_self
    exact sealed_cons hq hb (ih fun d hd => h d (List.mem_cons_of_mem _ hd))

/-- A text that trimming leaves alone, with at least one character. -/
structure Firm (s : List Char) : Prop where
  ne_nil : s ≠ []
  first : ∀ c ∈ s.head?, isBlank c = false
  last : ∀ c ∈ s.getLast?, isBlank c = false

theorem firm_of_ends {c d : Char} (hc : isBlank c = false) (hd : isBlank d = false)
    (s : List Char) : Firm (c :: s ++ [d]) where
  ne_nil := by simp
  first := by simpa using hc
  last := by
    rw [List.getLast?_append]
    simpa using hd

theorem trimStart_of_first {s : List Char} (h : ∀ c ∈ s.head?, isBlank c = false) :
    trimStart s = s := by
  cases s with
  | nil => rfl
  | cons c s => exact trimStart_eq_self (h c rfl)

theorem trimEnd_of_last {s : List Char} (h : ∀ c ∈ s.getLast?, isBlank c = false) :
    trimEnd s = s := by
  rcases List.eq_nil_or_concat s with rfl | ⟨t, c, rfl⟩
  · rfl
  · rw [List.concat_eq_append] at h ⊢
    exact trimEnd_append_singleton (h c (by simp))

theorem trimEnd_append_blank {s : List Char} {c : Char} (h : isBlank c = true) :
    trimEnd (s ++ [c]) = trimEnd s := by
  simp [trimEnd, h]

/-- Trimming the end goes on in front of a text only if nothing is left of that. -/
theorem trimEnd_append (s t : List Char) :
    trimEnd (s ++ t) = if trimEnd t = [] then trimEnd s else s ++ trimEnd t := by
  unfold trimEnd
  rw [List.reverse_append, List.dropWhile_append]
  split <;> simp_all

theorem trim_cons_of_not_blank {c : Char} (h : isBlank c = false) (s : List Char) :
    trim (c :: s) = c :: trimEnd s := by
  rw [trim, trimStart_eq_self h, ← List.singleton_append, trimEnd_append]
  split
  · next hnil =>
    rw [hnil]
    exact trimEnd_append_singleton (s := []) h
  · rfl

theorem Firm.trim_eq {s : List Char} (h : Firm s) : trim s = s := by
  rw [trim, trimStart_of_first h.first, trimEnd_of_last h.last]

theorem Firm.trim_append_blank {s : List Char} {c : Char} (h : Firm s) (hc : isBlank c = true) :
    trim (s ++ [c]) = s := by
  have hfirst : ∀ d ∈ (s ++ [c]).head?, isBlank d = false := by
    obtain ⟨x, t, rfl⟩ := List.exists_cons_of_ne_nil h.ne_nil
    exact h.first
  rw [trim, trimStart_of_first hfirst, trimEnd_append_blank hc, trimEnd_of_last h.last]

theorem trim_blank_cons {s : List Char} {c : Char} (hc : isBlank c = true) :
    trim (c :: s) = trim s := by
  simp [trim, trimStart, hc]

theorem Firm.append {s t : List Char} (hs : Firm s) (ht : ∀ c ∈ t.getLast?, isBlank c = false) :
    Firm (s ++ t) where
  ne_nil := by simp [hs.ne_nil]
  first := by
    obtain ⟨x, u, rfl⟩ := List.exists_cons_of_ne_nil hs.ne_nil
    exact hs.first
  last := by
    intro c hc
    rw [List.getLast?_append] at hc
    cases hl : t.getLast? with
    | none => exact hs.last c (by simpa [hl] using hc)
    | some d =>
      have hd : d = c := by simpa [hl] using hc
      exact hd ▸ ht d hl

theorem Firm.last_append {s : List Char} (hs : Firm s) (t : List Char) :
    ∀ c ∈ (t ++ s).getLast?, isBlank c = false := by
  intro c hc
  apply hs.last c
  rw [List.getLast?_append, List.getLast?_eq_some_getLast hs.ne_nil] at hc
  rw [List.getLast?_eq_some_getLast hs.ne_nil]
  exact hc

theorem Firm.cons_cons {c d : Char} {s : List Char} (hc : isBlank c = false) (hs : Firm s) :
    Firm (c :: d :: s) where
  ne_nil := List.cons_ne_nil _ _
  first := by simpa using hc
  last := hs.last_append [c, d]

theorem cut_eq_none {mark s : List Char} (h : ¬ mark <:+: s) : cut mark s = none := by
  cases hc : cut mark s with
  | none => rfl
  | some pair =>
    obtain ⟨before, after⟩ := pair
    exact absurd ⟨before, after, (append_of_cut hc).symm⟩ h

/-- A mark that does not occur in a text does not stand in front of it either, unless its end
overlaps what follows. -/
theorem behind?_eq_none {mark s rest : List Char} (hs : s ≠ []) (h : ¬ mark <:+: s)
    (hend : ∀ u, u <:+ mark.tail → u ≠ [] → ¬ u <+: rest) : behind? mark (s ++ rest) = none := by
  cases hb : behind? mark (s ++ rest) with
  | none => rfl
  | some r =>
    exfalso
    rcases List.append_eq_append_iff.1 (eq_append_of_behind? hb) with ⟨t, rfl, hr⟩ | ⟨t, rfl, hr⟩
    · by_cases ht : t = []
      · exact h (by simp [ht])
      · obtain ⟨c, s, rfl⟩ := List.exists_cons_of_ne_nil hs
        exact hend t ⟨s, rfl⟩ ht ⟨r, hr.symm⟩
    · exact h ⟨[], t, rfl⟩

theorem not_infix_of_cut_eq_none {mark s : List Char} (hmark : mark ≠ [])
    (h : cut mark s = none) : ¬ mark <:+: s := by
  induction s with
  | nil => rwa [List.infix_nil]
  | cons c s ih =>
    rw [cut] at h
    split at h
    · cases h
    · next hfirst =>
      rw [List.infix_cons_iff]
      rintro (⟨rest, hrest⟩ | hi)
      · rw [← hrest, behind?_self_append] at hfirst
        cases hfirst
      · exact ih (Option.map_eq_none_iff.mp h) hi

/-- A mark of two characters does not arise at the end of a text that does not end with its
first. -/
theorem not_infix_append_take {a b : Char} {s : List Char} (h : ¬ [a, b] <:+: s)
    (hlast : s.getLast? ≠ some a) (more : List Char) : ¬ [a, b] <:+: s ++ more.take 1 := by
  induction s with
  | nil =>
    intro hi
    have := hi.length_le
    simp only [List.nil_append, List.length_take, List.length_cons, List.length_nil] at this
    omega
  | cons c s ih =>
    rw [List.infix_cons_iff, not_or] at h
    rw [List.cons_append, List.infix_cons_iff]
    rintro (hfront | hi)
    · cases s with
      | nil =>
        have hc := (List.cons_prefix_cons.mp hfront).1
        exact hlast (by rw [hc]; rfl)
      | cons d s =>
        obtain ⟨hc, hd⟩ := List.cons_prefix_cons.mp hfront
        refine h.1 (List.cons_prefix_cons.mpr ⟨hc, ?_⟩)
        exact List.cons_prefix_cons.mpr ⟨(List.cons_prefix_cons.mp hd).1, List.nil_prefix⟩
    · refine ih h.2 ?_ hi
      cases s with
      | nil => simp
      | cons d s => simpa [List.getLast?_cons_cons] using hlast

/-- A mark of two characters does not arise at the front of a text by what follows it. -/
theorem not_prefix_pair_append {a b : Char} {s t : List Char} (h : ¬ [a, b] <+: s)
    (ha : t.head? ≠ some a) (hb : t.head? ≠ some b) : ¬ [a, b] <+: s ++ t := by
  rcases s with _ | ⟨c, _ | ⟨d, s⟩⟩
  · rintro ⟨tail, rfl⟩
    exact ha rfl
  · rintro ⟨tail, htail⟩
    obtain ⟨-, rfl⟩ := List.cons.inj htail
    exact hb rfl
  · rintro ⟨tail, htail⟩
    obtain ⟨rfl, hrest⟩ := List.cons.inj htail
    obtain ⟨rfl, -⟩ := List.cons.inj hrest
    exact h ⟨s, rfl⟩

/-- The first mark of two characters is not changed by a text in front in which none is complete
before the second character behind it. -/
theorem cut_pair_append_left {a b : Char} {s more : List Char}
    (h : ¬ [a, b] <:+: s ++ more.take 1) :
    cut [a, b] (s ++ more) =
      (cut [a, b] more).map fun (before, after) => (s ++ before, after) := by
  induction s with
  | nil => simp
  | cons c s ih =>
    rw [List.cons_append, List.infix_cons_iff, not_or] at h
    have hfirst : behind? [a, b] (c :: (s ++ more)) = none := by
      -- The two characters in front belong to the part that is known to hold no mark.
      cases hb : behind? [a, b] (c :: (s ++ more)) with
      | none => rfl
      | some rest =>
        have happ := eq_append_of_behind? hb
        exfalso
        apply h.1
        cases s with
        | nil => cases more <;> simp_all
        | cons d s => simp_all
    rw [List.cons_append, cut, hfirst, ih h.2]
    cases cut [a, b] more <;> rfl

/-- A mark of two characters is found where it stands, unless it is complete before. -/
theorem cut_pair_append {a b : Char} {s : List Char} (h : ¬ [a, b] <:+: s ++ [a])
    (rest : List Char) : cut [a, b] (s ++ a :: b :: rest) = some (s, rest) := by
  rw [cut_pair_append_left h]
  simp [cut, behind?]

/-- Opening braces are found where they stand, unless a brace before them makes them start
earlier. -/
theorem cut_braces_append {s rest : List Char} (h : ¬ ['{', '{'] <:+: s)
    (hlast : s.getLast? ≠ some '{') :
    cut ['{', '{'] (s ++ '{' :: '{' :: rest) = some (s, rest) :=
  cut_pair_append (not_infix_append_take h hlast ['{']) rest

/-- A mark of one character is found where it stands for the first time. -/
theorem cut_singleton_append {a : Char} {s : List Char} (h : a ∉ s) (rest : List Char) :
    cut [a] (s ++ a :: rest) = some (s, rest) := by
  induction s with
  | nil => simp [cut, behind?]
  | cons c s ih =>
    rw [List.mem_cons, not_or] at h
    simp [cut, behind?, h.1, ih h.2]

/-- A mark is found where it stands, unless it stands before or its beginning is the end of
another. -/
theorem cut_append_of_not_infix {mark s rest : List Char} (hmark : mark ≠ [])
    (h : ¬ mark <:+: s) (hend : ∀ u, u <:+ mark.tail → u ≠ [] → ¬ u <+: mark ++ rest) :
    cut mark (s ++ (mark ++ rest)) = some (s, rest) := by
  induction s with
  | nil =>
    obtain ⟨m, mark, rfl⟩ := List.exists_cons_of_ne_nil hmark
    rw [List.nil_append, List.cons_append, cut, ← List.cons_append, behind?_self_append]
  | cons c s ih =>
    have hrest := ih fun hi => h (hi.trans (List.suffix_cons c s).isInfix)
    have hfirst := behind?_eq_none (List.cons_ne_nil c s) h hend
    rw [List.cons_append] at hfirst ⊢
    rw [cut, hfirst, hrest]
    rfl

theorem not_infix_before_of_cut {mark s before after : List Char} (hmark : mark ≠ [])
    (h : cut mark s = some (before, after)) : ¬ mark <:+: before := by
  induction s generalizing before with
  | nil => cases h
  | cons c s ih =>
    rw [cut] at h
    split at h
    · cases h
      simpa using hmark
    · next hfirst =>
      obtain ⟨⟨front, back⟩, hcut, hpair⟩ := Option.map_eq_some_iff.mp h
      cases hpair
      rw [List.infix_cons_iff]
      rintro (⟨tail, htail⟩ | hi)
      · -- The mark would stand at the very front, where it was not found.
        rw [append_of_cut hcut, List.append_assoc, ← List.cons_append, ← htail, List.append_assoc,
          behind?_self_append] at hfirst
        cases hfirst
      · exact ih hcut hi

/-- What precedes the first mark does not hold it, not even with its first character added. -/
theorem not_infix_of_cut {a b : Char} {s before after : List Char}
    (h : cut [a, b] s = some (before, after)) : ¬ [a, b] <:+: before ++ [a] := by
  induction s generalizing before with
  | nil => simp [cut] at h
  | cons c s ih =>
    rw [cut] at h
    split at h
    · cases h
      intro hi
      have := hi.length_le
      simp at this
    · next hfirst =>
      obtain ⟨⟨front, back⟩, hcut, hpair⟩ := Option.map_eq_some_iff.mp h
      cases hpair
      rw [List.cons_append, List.infix_cons_iff]
      rintro (⟨tail, htail⟩ | hi)
      · -- The mark would stand at the very front, where it was not found.
        have happ := append_of_cut hcut
        cases front <;> simp_all [behind?]
      · exact ih hcut hi

/-- A mark does not stand across a character that it lacks. -/
theorem infix_append_cons_iff {mark a b : List Char} {c : Char} (hne : mark ≠ [])
    (hc : c ∉ mark) : mark <:+: a ++ c :: b ↔ mark <:+: a ∨ mark <:+: b := by
  have hnil {part : List Char} (h : part <+: c :: b) (hpart : part ⊆ mark) : part = [] := by
    cases part with
    | nil => rfl
    | cons d part =>
      obtain ⟨rfl, -⟩ := List.cons_prefix_cons.mp h
      exact absurd (hpart List.mem_cons_self) hc
  rw [List.infix_append_iff]
  constructor
  · rintro (h | h | ⟨left, right, rfl, hleft, hright⟩)
    · exact .inl h
    · rcases List.infix_cons_iff.mp h with h | h
      · exact absurd (hnil h (List.Subset.refl mark)) hne
      · exact .inr h
    · rw [hnil hright (List.subset_append_right left right), List.append_nil]
      exact .inl hleft.isInfix
  · rintro (h | h)
    · exact .inl h
    · exact .inr (.inl (List.infix_cons_iff.mpr (.inr h)))

/-- Whether a mark stands at the front of a text that is long enough for it does not depend on
what follows the text. -/
theorem behind?_append {mark s : List Char} (h : mark.length ≤ s.length) (more : List Char) :
    behind? mark (s ++ more) = (behind? mark s).map (· ++ more) := by
  induction mark generalizing s with
  | nil => rfl
  | cons m mark ih =>
    cases s with
    | nil => cases h
    | cons c s =>
      rw [List.cons_append, behind?, behind?]
      split
      · exact ih (Nat.le_of_succ_le_succ h)
      · rfl

theorem length_le_of_cut {mark s before after : List Char}
    (h : cut mark s = some (before, after)) : mark.length ≤ s.length := by
  rw [append_of_cut h]
  simp only [List.length_append]
  omega

theorem length_le_of_cutOutside {mark s before after : List Char} {place : Quoting}
    (h : cutOutside mark place s = some (before, after)) : mark.length ≤ s.length := by
  rw [append_of_cutOutside h]
  simp only [List.length_append]
  omega

theorem length_le_of_behind? {mark s after : List Char} (h : behind? mark s = some after) :
    mark.length ≤ s.length := by
  rw [eq_append_of_behind? h, List.length_append]
  exact Nat.le_add_right _ _

/-- A text behind the first mark does not move it. -/
theorem cut_append_right {mark s before after : List Char}
    (h : cut mark s = some (before, after)) (more : List Char) :
    cut mark (s ++ more) = some (before, after ++ more) := by
  induction s generalizing before with
  | nil => cases h
  | cons c s ih =>
    have hfirst := behind?_append (length_le_of_cut h) more
    rw [cut] at h
    rw [List.cons_append] at hfirst ⊢
    rw [cut, hfirst]
    split at h
    · next hmark =>
      cases h
      simp [hmark]
    · next hmark =>
      obtain ⟨⟨front, back⟩, hcut, hpair⟩ := Option.map_eq_some_iff.mp h
      cases hpair
      simp [hmark, ih hcut]

theorem cutOutside_append_right {mark s before after : List Char} {place : Quoting}
    (h : cutOutside mark place s = some (before, after)) (more : List Char) :
    cutOutside mark place (s ++ more) = some (before, after ++ more) := by
  induction s generalizing place before with
  | nil => cases h
  | cons c s ih =>
    have hfirst : (if place = .outside then behind? mark (c :: s ++ more) else none) =
        (if place = .outside then behind? mark (c :: s) else none).map (· ++ more) := by
      rw [behind?_append (length_le_of_cutOutside h)]
      split <;> rfl
    rw [cutOutside] at h
    rw [List.cons_append] at hfirst ⊢
    rw [cutOutside, hfirst]
    split at h
    · next hmark =>
      cases h
      simp [hmark]
    · next hmark =>
      obtain ⟨⟨front, back⟩, hcut, hpair⟩ := Option.map_eq_some_iff.mp h
      cases hpair
      simp [hmark, ih hcut]

/-- A mark that is not found in front of a text that is long enough for it is not found there
whatever follows the text. -/
theorem behind?_replace {mark s after : List Char} (h : behind? mark (s ++ after) = none)
    (hlength : mark.length ≤ s.length) (more : List Char) : behind? mark (s ++ more) = none := by
  rw [behind?_append hlength] at h ⊢
  rw [Option.map_eq_none_iff.mp h]
  rfl

/-- What follows the first mark may be anything. -/
theorem cutOutside_replace {mark s before after : List Char} {place : Quoting} (hmark : mark ≠ [])
    (h : cutOutside mark place s = some (before, after)) (more : List Char) :
    cutOutside mark place (before ++ mark ++ more) = some (before, more) := by
  induction s generalizing place before with
  | nil => cases h
  | cons c s ih =>
    rw [cutOutside] at h
    split at h
    · next rest hfront =>
      cases h
      obtain ⟨m, mark, rfl⟩ := List.exists_cons_of_ne_nil hmark
      split at hfront
      · next hplace =>
        rw [List.nil_append, List.cons_append, cutOutside, if_pos hplace, ← List.cons_append,
          behind?_self_append]
      · cases hfront
    · next hfront =>
      obtain ⟨⟨front, back⟩, hcut, hpair⟩ := Option.map_eq_some_iff.mp h
      cases hpair
      have hlength : mark.length ≤ (c :: (front ++ mark)).length := by
        simp only [List.length_cons, List.length_append]
        omega
      have hfirst : (if place = .outside then behind? mark (c :: (front ++ mark ++ more)) else none)
          = none := by
        split
        · next hplace =>
          rw [if_pos hplace, append_of_cutOutside hcut, ← List.cons_append] at hfront
          rw [← List.cons_append]
          exact behind?_replace hfront hlength more
        · rfl
      rw [List.cons_append, List.cons_append, cutOutside, hfirst, ih hcut]
      rfl

theorem outside_of_cutOutside {mark s before after : List Char} {place : Quoting}
    (h : cutOutside mark place s = some (before, after)) : place.after before = .outside := by
  induction s generalizing place before with
  | nil => cases h
  | cons c s ih =>
    rw [cutOutside] at h
    split at h
    · next hfront =>
      cases h
      split at hfront
      · assumption
      · cases hfront
    · obtain ⟨⟨front, back⟩, hcut, hpair⟩ := Option.map_eq_some_iff.mp h
      cases hpair
      rw [Quoting.after_cons]
      exact ih hcut

/-- A mark outside of strings does not stand before the first one. -/
theorem prefix_of_cutOutside {mark s before after other : List Char} {place : Quoting}
    (h : cutOutside mark place s = some (before, after)) (hmark : other ++ mark <+: s)
    (hplace : place.after other = .outside) : before <+: other := by
  induction s generalizing place before other with
  | nil => cases h
  | cons c s ih =>
    rw [cutOutside] at h
    split at h
    · cases h
      exact List.nil_prefix
    · next hfront =>
      obtain ⟨⟨front, back⟩, hcut, hpair⟩ := Option.map_eq_some_iff.mp h
      cases hpair
      cases other with
      | nil =>
        have houtside : place = .outside := hplace
        rw [if_pos houtside, behind?_eq_none_iff] at hfront
        exact absurd hmark hfront
      | cons d other =>
        obtain ⟨rfl, hrest⟩ := List.cons_prefix_cons.mp hmark
        exact List.cons_prefix_cons.mpr ⟨rfl, ih hcut hrest hplace⟩

/-- A text in front that has neither quotes nor braces does not change where a tag is closed. -/
theorem cutOutside_plain_append {s : List Char} (h : ∀ c ∈ s, isQuote c = false ∧ c ≠ '}')
    (t : List Char) :
    cutOutside ['}', '}'] .outside (s ++ t) =
      (cutOutside ['}', '}'] .outside t).map fun (before, after) => (s ++ before, after) := by
  have hseal := sealed_of_plain h
  rw [cutOutside_append_left fun u v hs hv hu =>
    not_prefix_of_shielded hseal.shielded hs hv hu _ _, hseal.closed]

/-- No closing braces stand outside the quoted strings. -/
def Unclosed : Quoting → List Char → Prop
  | _, [] => True
  | place, c :: s => (place = .outside → ¬ ['}', '}'] <+: c :: s) ∧ Unclosed (place.next c) s

theorem unclosed_append {place : Quoting} {s t : List Char} (h : Unclosed place (s ++ t)) :
    Unclosed place s ∧ Unclosed (place.after s) t := by
  induction s generalizing place with
  | nil => exact ⟨trivial, h⟩
  | cons c s ih =>
    obtain ⟨hs, ht⟩ := ih h.2
    exact ⟨⟨fun hplace hmark => h.1 hplace (hmark.trans (List.prefix_append (c :: s) t)), hs⟩, ht⟩

theorem unclosed_of_no_braces {place : Quoting} {s : List Char} (h : ¬ ['}', '}'] <:+: s) :
    Unclosed place s := by
  induction s generalizing place with
  | nil => trivial
  | cons c s ih =>
    rw [List.infix_cons_iff, not_or] at h
    exact ⟨fun _ => h.1, ih h.2⟩

section
variable {s t : List Char} (hquote : ∀ c ∈ s, isQuote c = false)
include hquote

/-- A text without quotes leaves the place behind it outside of strings. -/
theorem Unclosed.behind (h : Unclosed .outside (s ++ t)) : Unclosed .outside t := by
  have hplace : Quoting.outside.after s = .outside := closed_of_not_quote hquote
  have hrest := (unclosed_append h).2
  rwa [hplace] at hrest

theorem Unclosed.no_braces (h : Unclosed .outside s) : ¬ ['}', '}'] <:+: s := by
  induction s with
  | nil => decide
  | cons c s ih =>
    obtain ⟨hc, hquote⟩ := List.forall_mem_cons.mp hquote
    have hplace : Quoting.outside.next c = .outside := by simp [Quoting.next, hc]
    rw [List.infix_cons_iff, not_or]
    exact ⟨h.1 rfl, ih hquote (hplace ▸ h.2)⟩

end

/-- What a cut leaves in front of the closing braces holds no others. -/
theorem unclosed_of_cutOutside {place : Quoting} {s body rest : List Char}
    (h : cutOutside ['}', '}'] place s = some (body, rest)) : Unclosed place body := by
  induction s generalizing place body with
  | nil => cases h
  | cons c s ih =>
    rw [cutOutside] at h
    split at h
    · cases h
      trivial
    · next hfront =>
      obtain ⟨⟨front, back⟩, hcut, hpair⟩ := Option.map_eq_some_iff.mp h
      cases hpair
      refine ⟨fun hplace => ?_, ih hcut⟩
      rintro ⟨tail, htail⟩
      rw [if_pos hplace, append_of_cutOutside hcut, List.append_assoc, ← List.cons_append, ← htail,
        List.append_assoc, behind?_self_append] at hfront
      cases hfront

/-- A text without closing braces outside of its strings does not change where a tag is closed,
unless its last character is the first of the closing braces. -/
theorem cutOutside_unclosed_append {place : Quoting} {s : List Char} (h : Unclosed place s)
    (hlast : s.getLast? ≠ some '}') (t : List Char) :
    cutOutside ['}', '}'] place (s ++ t) =
      (cutOutside ['}', '}'] (place.after s) t).map fun (before, after) =>
        (s ++ before, after) := by
  apply cutOutside_append_left
  rintro u v rfl hv hu hmark
  have hrest := (unclosed_append h).2
  rw [hu] at hrest
  obtain ⟨c, v, rfl⟩ := List.exists_cons_of_ne_nil hv
  cases v with
  | nil => simp [← (List.cons_prefix_cons.mp hmark).1] at hlast
  | cons d v =>
    refine hrest.1 rfl (List.prefix_of_prefix_length_le hmark (List.prefix_append _ _) ?_)
    simp

theorem cutOutside_of_unclosed {s : List Char} (h : Unclosed .outside s) (hclosed : Closed s)
    (hlast : s.getLast? ≠ some '}') (rest : List Char) :
    cutOutside ['}', '}'] .outside (s ++ '}' :: '}' :: rest) = some (s, rest) := by
  rw [cutOutside_unclosed_append h hlast, show Quoting.outside.after s = .outside from hclosed]
  simp [cutOutside, behind?]

/-- The closing braces behind a text without quotes are found if none are complete before. -/
theorem cutOutside_unquoted_append {s : List Char} (hquote : ∀ c ∈ s, isQuote c = false)
    (h : ¬ ['}', '}'] <:+: s ++ ['}']) (rest : List Char) :
    cutOutside ['}', '}'] .outside (s ++ '}' :: '}' :: rest) = some (s, rest) := by
  have hfree : ¬ ['}', '}'] <:+: s := fun hi => h (hi.trans (List.prefix_append s _).isInfix)
  refine cutOutside_of_unclosed (unclosed_of_no_braces hfree) (closed_of_not_quote hquote) ?_ rest
  intro hlast
  obtain ⟨t, rfl⟩ := List.getLast?_eq_some_iff.mp hlast
  exact h ⟨t, [], by simp⟩

theorem fields_append (separator : Char) (a b : List Char) :
    fields separator (a ++ separator :: b) = fields separator a ++ fields separator b := by
  induction a with
  | nil => simp [fields]
  | cons c a ih =>
    rw [List.cons_append, fields, fields]
    split
    · rw [ih, List.cons_append]
    · obtain ⟨field, more, hfields⟩ := List.exists_cons_of_ne_nil (fields_ne_nil separator a)
      rw [ih, hfields]
      rfl

theorem fields_of_not_mem {separator : Char} {a : List Char} (h : separator ∉ a) :
    fields separator a = [a] := by
  induction a with
  | nil => rfl
  | cons c a ih =>
    rw [List.mem_cons, not_or] at h
    rw [fields, if_neg (Ne.symm h.1), ih h.2]

theorem not_mem_of_mem_fields {separator : Char} {s field : List Char}
    (h : field ∈ fields separator s) : separator ∉ field := by
  induction s generalizing field with
  | nil =>
    rw [fields, List.mem_singleton] at h
    simp [h]
  | cons c s ih =>
    rw [fields] at h
    split at h
    · rcases List.mem_cons.mp h with rfl | h
      · simp
      · exact ih h
    · next hc =>
      obtain ⟨first, more, hfields⟩ := List.exists_cons_of_ne_nil (fields_ne_nil separator s)
      rw [hfields] at h ih
      rcases List.mem_cons.mp h with rfl | h
      · rw [List.mem_cons, not_or]
        exact ⟨Ne.symm hc, ih List.mem_cons_self⟩
      · exact ih (List.mem_cons_of_mem first h)

theorem prefix_of_fields_eq {separator : Char} {s first : List Char} {more : List (List Char)}
    (h : fields separator s = first :: more) : first <+: s := by
  induction s generalizing first more with
  | nil =>
    obtain ⟨rfl, -⟩ := List.cons.inj h
    exact List.nil_prefix
  | cons c s ih =>
    rw [fields] at h
    split at h
    · obtain ⟨rfl, -⟩ := List.cons.inj h
      exact List.nil_prefix
    · obtain ⟨next, rest, hfields⟩ := List.exists_cons_of_ne_nil (fields_ne_nil separator s)
      rw [hfields] at h
      obtain ⟨rfl, -⟩ := List.cons.inj h
      exact (List.prefix_cons_inj c).mpr (ih hfields)

theorem infix_of_mem_fields {separator : Char} {s field : List Char}
    (h : field ∈ fields separator s) : field <:+: s := by
  induction s with
  | nil =>
    rw [fields, List.mem_singleton] at h
    exact h ▸ List.nil_infix
  | cons c s ih =>
    have hlater (hmem : field ∈ fields separator s) : field <:+: c :: s :=
      (ih hmem).trans (List.suffix_cons c s).isInfix
    rw [fields] at h
    split at h
    · rcases List.mem_cons.mp h with rfl | h
      · exact List.nil_infix
      · exact hlater h
    · obtain ⟨first, rest, hfields⟩ := List.exists_cons_of_ne_nil (fields_ne_nil separator s)
      rw [hfields] at h hlater
      rcases List.mem_cons.mp h with rfl | h
      · exact ((List.prefix_cons_inj c).mpr (prefix_of_fields_eq hfields)).isInfix
      · exact hlater (List.mem_cons_of_mem first h)

theorem fields_eq_splitOn (separator : Char) (s : List Char) :
    fields separator s = s.splitOn separator := by
  induction s with
  | nil => rfl
  | cons c s ih =>
    obtain ⟨field, more, hfields⟩ := List.exists_cons_of_ne_nil (fields_ne_nil separator s)
    rw [fields, List.splitOn, List.splitOnP_cons_eq_if_modifyHead, ← List.splitOn, ← ih, hfields]
    simp only [beq_iff_eq, List.modifyHead_cons]

theorem intercalate_fields (separator : Char) (s : List Char) :
    [separator].intercalate (fields separator s) = s := by
  rw [fields_eq_splitOn, List.intercalate_splitOn]

theorem fields_intercalate {separator : Char} {parts : List (List Char)} (hne : parts ≠ [])
    (h : ∀ part ∈ parts, separator ∉ part) :
    fields separator ([separator].intercalate parts) = parts := by
  rw [fields_eq_splitOn, List.splitOn_intercalate separator h hne]

/-- The characters of texts that are put together are theirs or the separator's. -/
theorem mem_intercalate {c : Char} {separator : String} {parts : List String}
    (h : c ∈ (separator.intercalate parts).toList) :
    c ∈ separator.toList ∨ ∃ part ∈ parts, c ∈ part.toList := by
  induction parts with
  | nil => simp at h
  | cons first rest ih =>
    cases rest with
    | nil => exact .inr ⟨first, List.mem_cons_self, by simpa using h⟩
    | cons second rest =>
      rw [String.intercalate_cons_cons, String.toList_append, String.toList_append,
        List.mem_append, List.mem_append] at h
      rcases h with (h | h) | h
      · exact .inr ⟨first, List.mem_cons_self, h⟩
      · exact .inl h
      · obtain hseparator | ⟨part, hpart, hc⟩ := ih h
        · exact .inl hseparator
        · exact .inr ⟨part, List.mem_cons_of_mem first hpart, hc⟩

end Stencil.Text
