import Stencil.Scope
import Stencil.Text.Blank
import Stencil.Proofs.Text

/-!
# Texts without the placeholder

A reference that stands for nothing is written as a placeholder of question
marks. Texts that are put together at any other character hold it only where
one of them does, and so do the parts that a text is cut into. A name is a text
that is neither empty nor holds the placeholder.
-/

namespace Stencil

namespace Text

theorem isSuffix_trimStart (s : List Char) : trimStart s <:+ s :=
  List.dropWhile_suffix isBlank

theorem isPrefix_trimEnd (s : List Char) : trimEnd s <+: s := by
  rw [← List.reverse_suffix, trimEnd, List.reverse_reverse]
  exact List.dropWhile_suffix isBlank

theorem isInfix_trim (s : List Char) : trim s <:+: s :=
  (isPrefix_trimEnd _).isInfix.trans (isSuffix_trimStart s).isInfix

end Text

theorem toList_unresolved : unresolved.toList = ['?', '?', '?'] := by
  decide

def Resolved (s : List Char) : Prop :=
  ¬ unresolved.toList <:+: s

instance (s : List Char) : Decidable (Resolved s) :=
  inferInstanceAs (Decidable (¬ _))

namespace Resolved

variable {a b : List Char} {c : Char}

theorem of_infix (hb : Resolved b) (h : a <:+: b) : Resolved a :=
  fun hmark => hb (hmark.trans h)

theorem append_cons_iff (hc : c ≠ '?') : Resolved (a ++ c :: b) ↔ Resolved a ∧ Resolved b := by
  have hmark : c ∉ unresolved.toList := by
    simp [toList_unresolved, hc]
  rw [Resolved, Text.infix_append_cons_iff (by decide) hmark, not_or]
  rfl

@[simp] theorem nil : Resolved [] := by decide

theorem cons_iff (hc : c ≠ '?') : Resolved (c :: b) ↔ Resolved b := by
  have h := append_cons_iff (a := []) (b := b) hc
  simpa using h

theorem concat_iff (hc : c ≠ '?') : Resolved (a ++ [c]) ↔ Resolved a := by
  rw [append_cons_iff hc, and_iff_left nil]

/-- A text in front that has no question marks plays no part. -/
theorem append_iff_of_not_mem (ha : '?' ∉ a) : Resolved (a ++ b) ↔ Resolved b := by
  induction a with
  | nil => rfl
  | cons c a ih =>
    rw [List.mem_cons, not_or] at ha
    rw [List.cons_append, cons_iff (Ne.symm ha.1), ih ha.2]

theorem of_not_mem (ha : '?' ∉ a) : Resolved a := by
  have h := (append_iff_of_not_mem (b := []) ha).mpr nil
  rwa [List.append_nil] at h

/-- The parts around a mark. -/
theorem of_cut {mark before after : List Char} (h : Resolved a)
    (hcut : Text.cut mark a = some (before, after)) : Resolved before ∧ Resolved after := by
  rw [Text.append_of_cut hcut, List.append_assoc] at h
  exact ⟨h.of_infix (List.prefix_append _ _).isInfix,
    h.of_infix ((List.suffix_append mark after).trans (List.suffix_append _ _)).isInfix⟩

/-- Texts put together behind each other, with a separator that has no question mark. -/
theorem intercalate_iff (separator : Char) (hseparator : separator ≠ '?') {parts : List String} :
    Resolved ((String.singleton separator).intercalate parts).toList ↔
      ∀ part ∈ parts, Resolved part.toList := by
  induction parts with
  | nil => simp
  | cons first rest ih =>
    cases rest with
    | nil => simp
    | cons second rest =>
      rw [String.intercalate_cons_cons, String.toList_append, String.toList_append,
        String.toList_singleton, List.append_assoc, List.singleton_append,
        append_cons_iff hseparator, ih, List.forall_mem_cons (l := second :: rest)]

end Resolved

/-- A text that is neither empty nor holds the placeholder. -/
structure Named (s : String) : Prop where
  ne_empty : s ≠ ""
  resolved : Resolved s.toList

theorem named_ofList {s : List Char} (hne : s ≠ []) (h : Resolved s) : Named (String.ofList s) where
  ne_empty := by
    rw [Ne, ← String.toList_inj, String.toList_ofList]
    exact hne
  resolved := by rwa [String.toList_ofList]

end Stencil
