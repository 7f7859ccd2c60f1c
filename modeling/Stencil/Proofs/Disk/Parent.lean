import Stencil.Proofs.Disk.Convert
import Mathlib.Data.List.TakeWhile

/-!
# Files in their own directory

A file that is given by its path is converted as if its parent were the root of
all templates. Seen from there it lies under its name, whatever way the path is
spelled, so its target has the front of its path, or of the output directory,
and the name that another extension leaves.
-/

namespace Stencil.Disk

namespace Pathname

theorem join_append_nil {segments : List (List Char)} (h : segments ≠ []) :
    join (segments ++ [[]]) = join segments ++ ['/'] := by
  induction segments with
  | nil => exact absurd rfl h
  | cons first rest ih =>
    cases rest with
    | nil => rfl
    | cons second rest =>
      rw [join_cons_cons, List.append_assoc, List.cons_append]
      exact congrArg (first ++ '/' :: ·) (ih (List.cons_ne_nil second rest))

/-- What stands before the last segment of a path ends with a slash, if anything does. -/
theorem exists_precedes {p : Pathname} {before : List (List Char)} {last : List Char}
    (h : Text.fields '/' p = before ++ [last]) :
    ∃ text lead segments, p = text ++ last ∧ opened text = text ∧
      Precedes lead segments text := by
  have hp : p = join (before ++ [[]]) ++ last := by
    rw [← join_eq_append, ← h, join_fields]
  by_cases hbefore : before = []
  · subst hbefore
    exact ⟨[], .plain, [], hp, rfl, precedes_join (List.forall_mem_nil _)⟩
  · rw [join_append_nil hbefore] at hp
    have hopened : opened (join before ++ ['/']) = join before ++ ['/'] := if_pos (by simp)
    obtain ⟨segments, -, hsplit⟩ := exists_split_opened (d := join before ++ ['/']) (by simp)
    refine ⟨_, (split (join before ++ ['/'])).1, segments, hp, hopened, fun name _ _ hslash => ?_⟩
    rw [← hopened, hsplit, Text.fields_of_not_mem hslash, hopened]

/-- What is dropped at the end counts for nothing. -/
theorem exists_trimBack_append (segments : List (List Char)) :
    ∃ skipped, (∀ segment ∈ skipped, isSkipped segment = true) ∧
      trimBack segments ++ skipped = segments := by
  refine ⟨(segments.reverse.takeWhile isSkipped).reverse, fun segment hsegment => ?_, ?_⟩
  · exact List.mem_takeWhile_imp (List.mem_reverse.mp hsegment)
  · rw [trimBack, ← List.reverse_append, List.takeWhile_append_dropWhile, List.reverse_reverse]

/-- A path without a lead does not begin as one that has a lead. -/
theorem head?_of_split_plain {p : Pathname} {segments : List (List Char)} (hp : p ≠ [])
    (h : split p = (.plain, segments)) :
    ∀ first ∈ segments.head?, first ≠ [] ∧ first ≠ ['.'] := by
  unfold split at h
  split at h
  · cases h
  · cases h
  · cases h
  · next hroot hdot hhere =>
    cases h
    obtain ⟨c, s, rfl⟩ := List.exists_cons_of_ne_nil hp
    obtain ⟨field, more, hfields⟩ := List.exists_cons_of_ne_nil (Text.fields_ne_nil '/' s)
    have hc : c ≠ '/' := fun hc => hroot s (by rw [hc])
    intro first hfirst
    rw [Text.fields, if_neg hc, hfields, List.head?_cons, Option.mem_some_iff] at hfirst
    subst hfirst
    refine ⟨List.cons_ne_nil _ _, fun heq => ?_⟩
    obtain ⟨rfl, rfl⟩ := List.cons.inj heq
    cases s with
    | nil => exact hdot rfl
    | cons d s =>
      by_cases hd : d = '/'
      · exact hhere s (by rw [hd])
      · rw [Text.fields, if_neg hd] at hfields
        split at hfields <;> cases hfields

theorem slash_not_mem_of_split {p : Pathname} {segment : List Char} (h : segment ∈ (split p).2) :
    '/' ∉ segment := by
  unfold split at h
  split at h <;> exact Text.not_mem_of_mem_fields h

theorem head?_of_split_here {p : Pathname} {segments : List (List Char)}
    (h : split p = (.here, segments)) : segments.head? = some [] := by
  unfold split at h
  split at h
  · cases h
  · cases h
    rfl
  · cases h
    rw [Text.fields, if_pos rfl, List.head?_cons]
  · cases h

namespace Precedes

variable {lead : Lead} {segments : List (List Char)} {text : Pathname}
variable (h : Precedes lead segments text)
include h

theorem parent? {name : List Char} (hname : IsName name) :
    parent? (text ++ name) = some (lead.text ++ join (trimBack segments)) := by
  rw [Pathname.parent?, h name hname.ne_nil hname.ne_here hname.slash]
  simp only [last?_append_singleton hname.not_skipped, List.reverse_reverse]

/-- A file's parent has the components that stand before the file name. -/
theorem components_parent :
    components (lead.text ++ join (trimBack segments)) =
      lead.components ++ segments.filterMap component? := by
  have hsplit := h ['a'] (by decide) (by decide) (by decide)
  obtain ⟨skipped, hskipped, hsegments⟩ := exists_trimBack_append segments
  have hslash : ∀ segment ∈ trimBack segments, '/' ∉ segment := by
    intro segment hsegment
    refine slash_not_mem_of_split (p := text ++ ['a']) ?_
    rw [hsplit, ← hsegments]
    exact List.mem_append_left _ (List.mem_append_left _ hsegment)
  have hnone : skipped.filterMap component? = [] :=
    List.filterMap_eq_nil_iff.mpr fun segment hsegment =>
      component?_eq_none_iff.mpr (hskipped segment hsegment)
  rw [← hsegments, List.filterMap_append, hnone, List.append_nil, hsegments]
  cases hs : trimBack segments with
  | nil => cases lead <;> rfl
  | cons first rest =>
    rw [hs] at hslash hsegments
    rw [← hsegments] at hsplit
    have hfields := fields_join (List.cons_ne_nil first rest) hslash
    cases lead with
    | root =>
      rw [components]
      simp only [Lead.text, List.singleton_append, split, hfields]
    | here =>
      obtain rfl : first = [] := Option.some.inj (head?_of_split_here hsplit)
      cases rest with
      | nil => rfl
      | cons second rest =>
        rw [components]
        simp only [Lead.text, join, List.nil_append, List.singleton_append, split] at hfields ⊢
        rw [hfields]
    | plain =>
      have hfirst := head?_of_split_plain (by simp) hsplit
      rw [components, Lead.text, List.nil_append, split_join (List.cons_ne_nil first rest) hslash]
      exact hfirst

/-- Seen from its parent, a file lies under its name. -/
theorem strip?_parent {name : List Char} (hskipped : isSkipped name = false) (hslash : '/' ∉ name) :
    strip? (lead.text ++ join (trimBack segments)) (text ++ name) = some name := by
  rw [isSkipped, Bool.or_eq_false_iff, decide_eq_false_iff_not, decide_eq_false_iff_not] at hskipped
  have hsplit := h name hskipped.1 hskipped.2 hslash
  refine strip?_of_split h.components_parent (fun hlead hne => ?_) hsplit ?_
  · subst hlead
    obtain ⟨first, rest, rfl⟩ := List.exists_cons_of_ne_nil hne
    have hfirst := head?_of_split_plain (by simp [hskipped.1]) hsplit first rfl
    have hnone : component? first ≠ none := by
      rw [ne_eq, component?_eq_none_iff]
      simp [isSkipped, hfirst]
    obtain ⟨c, hc⟩ := Option.ne_none_iff_exists'.mp hnone
    rw [List.filterMap_cons_some hc]
    exact List.cons_ne_nil _ _
  · simp [isSkipped, hskipped]

/-- Another extension comes behind the name up to its last dot, unless that leaves two dots. -/
theorem exists_withExtension {name new : List Char} (hname : IsName name) (hnew : new ≠ []) :
    ∃ renamed, Pathname.withExtension new (text ++ name) = text ++ renamed ∧
      (renamed = ['.', '.'] ∨ renamed = (splitName name).1 ++ '.' :: new) := by
  cases hsplit : (splitName name).2 with
  | none =>
    have hextension : extension? (text ++ name) = none := by
      rw [extension?, h.fileName? hname, Option.bind_some, hsplit]
    have hcut : Pathname.cutExtension (text ++ name) = text ++ name := by
      rw [Pathname.cutExtension, hextension]
      split <;> rfl
    refine ⟨_, ?_, .inr rfl⟩
    rw [Pathname.withExtension, hcut, h.setExtension hname hnew]
  | some old =>
    obtain ⟨stem, hstem, hold, rfl⟩ := splitName_eq_some hsplit
    by_cases hdot : stem = ['.']
    · subst hdot
      exact ⟨_, h.withExtension_dots hname hold, .inl rfl⟩
    · refine ⟨_, h.withExtension hname hold hnew hstem hdot, .inr ?_⟩
      rw [splitName_append hstem hold]

end Precedes

/-- A name without an extension is its own stem. -/
theorem splitName_fst {name : List Char} (h : (splitName name).2 = none) :
    (splitName name).1 = name := by
  unfold splitName at h ⊢
  split at h
  · rfl
  · rfl
  · cases h

theorem mem_of_mem_stem {name : List Char} {c : Char} (h : c ∈ (splitName name).1) : c ∈ name := by
  cases hsplit : (splitName name).2 with
  | none => rwa [splitName_fst hsplit] at h
  | some old =>
    obtain ⟨stem, hstem, hold, rfl⟩ := splitName_eq_some hsplit
    rw [splitName_append hstem hold] at h
    exact List.mem_append_left _ h

/-- A name that is its own stem with an extension has that extension. -/
theorem splitName_of_eq {name new : List Char} (hnew : '.' ∉ new)
    (h : name = (splitName name).1 ++ '.' :: new) : (splitName name).2 = some new := by
  have hstem : (splitName name).1 ≠ [] := by
    intro hnil
    rw [hnil, List.nil_append] at h
    rw [h, splitName_hidden hnew] at hnil
    cases hnil
  rw [h, splitName_append hstem hnew]

end Pathname

open Pathname

section
variable {o : Options} {lead : Lead} {segments : List (List Char)} {text : Pathname}
variable {name renamed : List Char}

def Renamed (o : Options) (name renamed : List Char) : Prop :=
  renamed = ['.', '.'] ∨ renamed = (splitName name).1 ++ '.' :: o.targetExtension.toList

theorem Renamed.not_skipped (h : Renamed o name renamed) (ho : Separate o) (hname : IsName name) :
    isSkipped renamed = false ∧ '/' ∉ renamed := by
  obtain rfl | rfl := h
  · exact ⟨rfl, by decide⟩
  · have hlength : 1 < ((splitName name).1 ++ '.' :: o.targetExtension.toList).length := by
      have hpos := List.length_pos_iff.mpr fun hnil =>
        ho.ne_empty (String.toList_eq_nil_iff.mp hnil)
      rw [List.length_append, List.length_cons]
      omega
    refine ⟨?_, ?_⟩
    · rw [isSkipped, Bool.or_eq_false_iff, decide_eq_false_iff_not, decide_eq_false_iff_not]
      exact ⟨fun hnil => absurd (hnil ▸ hlength) (by decide),
        fun hhere => absurd (hhere ▸ hlength) (by decide)⟩
    · have hstem : '/' ∉ (splitName name).1 := fun hmem => hname.slash (mem_of_mem_stem hmem)
      simp [hstem, ho.slash]

/-- A file is written below the output directory, or else in its own directory, under its own name
with the other extension. -/
theorem exists_target?_parent (ho : Separate o) (h : Precedes lead segments text)
    (htext : opened text = text) (hname : IsName name) :
    ∃ renamed, Renamed o name renamed ∧ target? o (text ++ name) (parent? (text ++ name)) =
      some (opened ((o.outDir.map String.toList).getD text) ++ renamed) := by
  have hnew : o.targetExtension.toList ≠ [] := by simpa using ho.ne_empty
  obtain ⟨renamed, hextension, hrenamed⟩ := h.exists_withExtension hname hnew
  obtain ⟨hskipped, hslash⟩ := Renamed.not_skipped hrenamed ho hname
  refine ⟨renamed, hrenamed, ?_⟩
  rw [target?, if_neg ho.slash]
  dsimp only
  rw [hextension, h.parent? hname]
  cases o.outDir with
  | none => rw [Option.map_none, Option.getD_none, htext]
  | some d =>
    have hhead : renamed.head? ≠ some '/' := fun hhead => hslash (List.mem_of_mem_head? hhead)
    simp only [relocate, Option.bind_some, h.strip?_parent hskipped hslash, Option.map_some,
      Option.getD_some]
    rw [under_eq_append hhead]

end

end Stencil.Disk
