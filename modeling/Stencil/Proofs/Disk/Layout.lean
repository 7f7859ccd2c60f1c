import Stencil.Proofs.Disk.Convert

/-!
# The layout below the output directory

The templates that a walk lists are written below the output directory as they
lie below the root, whatever way the root is spelled: the names that lead to a
target are those that lead to its template, but for the extension. One name is
an exception. What remains of it without its extension is two dots, and these
lead out of the directory. Templates that differ have targets that differ, also
without an output directory.
-/

namespace Stencil.Disk

open Pathname

namespace Pathname

/-- Names below a directory are components behind its own. -/
theorem components_opened_append {d : Pathname} (hd : d ≠ []) {names : Location} (hne : names ≠ [])
    (h : ∀ name ∈ names, IsName name) :
    components (opened d ++ join names) = components d ++ names.map .name := by
  obtain ⟨segments, hsegments, hsplit⟩ := exists_split_opened hd
  have hnames : names.filterMap component? = names.map .name := by
    rw [← List.filterMap_eq_map]
    apply List.filterMap_congr
    intro name hname
    simp [component?, (h name hname).not_skipped, (h name hname).ne_up]
  rw [components, hsplit, fields_join hne fun name hname => (h name hname).slash,
    List.filterMap_append, hsegments, hnames, ← List.append_assoc]
  rfl

end Pathname

namespace Stem

variable {s other : Stem} {old new : List Char}

/-- No name with an extension is two dots, so the renamed file tells its stem. -/
theorem renamed_injective (hs : s.Spelled old) (hother : other.Spelled old) (hnew : new ≠ [])
    (h : s.renamed new = other.renamed new) : s = other := by
  have hdots {stem : List Char} (hstem : stem ≠ []) : stem ++ '.' :: new ≠ ['.', '.'] := by
    intro heq
    have hlength := congrArg List.length heq
    have hfirst := List.length_pos_iff.mpr hstem
    have hlast := List.length_pos_iff.mpr hnew
    simp only [List.length_append, List.length_cons, List.length_nil] at hlength
    omega
  rw [renamed, renamed] at h
  split at h
  · next hname =>
    split at h
    · next hname' =>
      obtain ⟨directories, name⟩ := s
      obtain ⟨directories', name'⟩ := other
      cases hname
      cases hname'
      cases List.append_cancel_right h
      rfl
    · obtain ⟨-, hlast⟩ := List.append_inj' h rfl
      exact absurd (List.singleton_inj.mp hlast).symm (hdots hother.ne_nil)
  · split at h
    · obtain ⟨-, hlast⟩ := List.append_inj' h rfl
      exact absurd (List.singleton_inj.mp hlast) (hdots hs.ne_nil)
    · exact names_injective h

namespace Spelled

variable {o : Options} {root : Pathname}

/-- Templates below one root that are written to one place are one template. -/
theorem eq_of_target? (hs : s.Spelled o.sourceExtension.toList)
    (hother : other.Spelled o.sourceExtension.toList) (hroot : root ≠ [])
    (hnew : o.targetExtension.toList ≠ []) (hslash : '/' ∉ o.targetExtension.toList)
    (h : target? o (s.template o root) (some root) =
      target? o (other.template o root) (some root)) : s = other := by
  rw [hs.target?_template hroot hnew hslash, hother.target?_template hroot hnew hslash] at h
  refine renamed_injective hs hother hnew ?_
  exact join_injective (renamed_ne_nil _ _) (renamed_ne_nil _ _)
    (fun name hname => (hs.of_mem_renamed hslash hnew hname).1)
    (fun name hname => (hother.of_mem_renamed hslash hnew hname).1)
    (List.append_cancel_left (Option.some.inj h))

/-- A template is written below the output directory under its own names, the last one with what
another extension leaves of it. -/
theorem target?_outDir {outDir : String} (hs : s.Spelled o.sourceExtension.toList)
    (hdir : o.outDir = some outDir) (hroot : root ≠ []) (hnew : o.targetExtension.toList ≠ [])
    (hslash : '/' ∉ o.targetExtension.toList) :
    target? o (s.template o root) (some root) =
      some (under outDir.toList (join (s.renamed o.targetExtension.toList))) := by
  rw [hs.target?_template hroot hnew hslash, hdir, Option.map_some, Option.getD_some,
    under_eq_append (hs.head?_join_renamed hslash hnew)]

/-- The template keeps its place with the other extension unless its name is a dot, which leaves
two dots. -/
theorem target?_outDir_iff {outDir : String} (hs : s.Spelled o.sourceExtension.toList)
    (hdir : o.outDir = some outDir) (hroot : root ≠ []) (hnew : o.targetExtension.toList ≠ [])
    (hslash : '/' ∉ o.targetExtension.toList) :
    target? o (s.template o root) (some root) =
        some (under outDir.toList (join (s.names o.targetExtension.toList))) ↔
      s.name ≠ ['.'] := by
  have hnames : ∀ name ∈ s.names o.targetExtension.toList, IsName name :=
    fun _ => hs.isName_of_mem_names hslash hnew
  have hhead : (join (s.names o.targetExtension.toList)).head? ≠ some '/' :=
    head?_join_ne fun name hname =>
      have hname := hnames name (List.mem_of_mem_head? hname)
      ⟨hname.ne_nil, hname.slash⟩
  have hne : s.names o.targetExtension.toList ≠ [] := by simp [names]
  rw [hs.target?_outDir hdir hroot hnew hslash, Option.some.injEq,
    under_eq_append (hs.head?_join_renamed hslash hnew), under_eq_append hhead,
    List.append_cancel_left_eq]
  constructor
  · intro heq hname
    have hrenamed := join_injective (s.renamed_ne_nil _) hne
      (fun name hname => (hs.of_mem_renamed hslash hnew hname).1)
      (fun name hname => (hnames name hname).slash) heq
    -- Two dots would be a name of the file.
    have hdots : ['.', '.'] ∈ s.names o.targetExtension.toList := by
      rw [← hrenamed, renamed, if_pos hname]
      simp
    exact (hnames _ hdots).ne_up rfl
  · intro hname
    rw [renamed, if_neg hname]

end Spelled
end Stem

/-- The templates that a walk lists lie below its root under plain names, and the root is found
again at the front of their renamed paths. Such a template is written below the output directory
under the same names, with the target extension in place of the other one, exactly if its name is
not a single dot before the extension; then its target lies below the output directory. Different
templates have different targets, with and without an output directory. -/
theorem target?_eq_under_iff {t : Tree} (ht : t.WellFormed) {o : Options} {outDir : String}
    (hdir : o.outDir = some outDir) (hout : outDir ≠ "") (hextension : o.targetExtension ≠ "")
    (hslash : '/' ∉ o.targetExtension.toList) {root : Pathname} (hroot : t.isDirectory root = true)
    {files : List Pathname} (hfiles : templateFiles t o root = .ok files) :
    (∀ p ∈ files, ∃ s : Stem, s.Spelled o.sourceExtension.toList ∧
      p = pathBelow root (s.names o.sourceExtension.toList) ∧
      (strip? root (withExtension o.targetExtension.toList p)).isSome = true ∧
      (target? o p (some root) =
          some (under outDir.toList (join (s.names o.targetExtension.toList))) ↔
        s.name ≠ ['.']) ∧
      (s.name = ['.'] → target? o p (some root) =
        some (under outDir.toList (join (s.directories ++ [['.', '.']])))) ∧
      components (under outDir.toList (join (s.names o.targetExtension.toList))) =
        components outDir.toList ++ (s.names o.targetExtension.toList).map .name) ∧
    ∀ p ∈ files, ∀ q ∈ files, p ≠ q →
      target? o p (some root) ≠ target? o q (some root) ∧
      target? { o with outDir := none } p (some root) ≠
        target? { o with outDir := none } q (some root) := by
  have hnew : o.targetExtension.toList ≠ [] := by simpa using hextension
  have hne : root ≠ [] := by
    rintro rfl
    cases Tree.stat_of_isDirectory hroot
  obtain ⟨top, stems, rfl, -, hlisted⟩ := templateFiles_eq_ok ht hroot hfiles
  constructor
  · intro p hp
    obtain ⟨s, hs, rfl⟩ := List.mem_map.mp hp
    have hspelled := (hlisted s hs).spelled
    have hnames : ∀ name ∈ s.names o.targetExtension.toList, IsName name :=
      fun _ => hspelled.isName_of_mem_names hslash hnew
    refine ⟨s, hspelled, ?_, ?_, hspelled.target?_outDir_iff hdir hne hnew hslash, ?_, ?_⟩
    · exact (pathBelow_eq (by simp [Stem.names]) fun _ => hspelled.isName_of_mem).symm
    · rw [Stem.template, hspelled.withExtension_path hne hnew, strip?_opened hne
        (s.renamed_ne_nil _) (fun _ hname => (hspelled.of_mem_renamed hslash hnew hname).1)
        fun _ hname => (hspelled.of_mem_renamed hslash hnew hname).2]
      rfl
    · intro hname
      rw [hspelled.target?_outDir hdir hne hnew hslash, Stem.renamed, if_pos hname]
    · rw [under_eq_append, components_opened_append (by simpa using hout) (by simp [Stem.names])
        hnames]
      exact head?_join_ne fun name hname =>
        have hname := hnames name (List.mem_of_mem_head? hname)
        ⟨hname.ne_nil, hname.slash⟩
  · intro p hp q hq hpq
    obtain ⟨s, hs, rfl⟩ := List.mem_map.mp hp
    obtain ⟨other, hother, rfl⟩ := List.mem_map.mp hq
    have hdiffer : s ≠ other := fun heq => hpq (by rw [heq])
    have hfirst := (hlisted s hs).spelled
    have hsecond := (hlisted other hother).spelled
    constructor
    · exact fun heq => hdiffer (hfirst.eq_of_target? hsecond hne hnew hslash heq)
    · exact fun heq => hdiffer (Stem.Spelled.eq_of_target? (o := { o with outDir := none })
        hfirst hsecond hne hnew hslash heq)

/-- A directory with a template whose name is a dot, and one with a plain name. -/
def dottedCards : Tree :=
  ((({} : Tree).set ["t".toList] .directory).set ["t".toList, "..hbs".toList]
    (.file "a".toUTF8)).set ["t".toList, "card.hbs".toList] (.file "b".toUTF8)

theorem templateFiles_dottedCards :
    templateFiles dottedCards { outDir := some "build" } "./t//".toList =
      .ok ["./t//..hbs".toList, "./t//card.hbs".toList] := by
  have hbelow : dottedCards.nodesBelow ["t".toList] =
      [(["..hbs".toList], .file "a".toUTF8), (["card.hbs".toList], .file "b".toUTF8)] := by
    have hsorted : (!decide (["card.hbs".toList] < ["..hbs".toList])) = true := by decide
    exact List.mergeSort_of_pairwise (List.pairwise_pair.mpr hsorted)
  have hfile : dottedCards.isFile "./t//".toList = false := rfl
  have hlocate : dottedCards.locate "./t//".toList = .ok ["t".toList] := rfl
  rw [templateFiles, hfile, if_neg Bool.false_ne_true, hlocate]
  dsimp only
  rw [hbelow]
  rfl

/-- The template that is called a dot would be written over the directory that the output directory
lies in; the other one keeps its place. -/
theorem not_under_dottedCards :
    templateFiles dottedCards { outDir := some "build" } "./t//".toList =
        .ok ["./t//..hbs".toList, "./t//card.hbs".toList] ∧
      target? { outDir := some "build" } "./t//..hbs".toList (some "./t//".toList) ≠
        some "build/..html".toList ∧
      target? { outDir := some "build" } "./t//..hbs".toList (some "./t//".toList) =
        some "build/..".toList ∧
      target? { outDir := some "build" } "./t//card.hbs".toList (some "./t//".toList) =
        some "build/card.html".toList := by
  obtain ⟨hplaces, -⟩ := target?_eq_under_iff (t := dottedCards) (by decide +kernel)
    (o := { outDir := some "build" }) rfl (by decide) (by decide) (by decide)
    (by decide +kernel) templateFiles_dottedCards
  have hstem {s other : Stem} (hs : s.Spelled "hbs".toList) (hother : other.Spelled "hbs".toList)
      (h : pathBelow "./t//".toList (s.names "hbs".toList) =
        pathBelow "./t//".toList (other.names "hbs".toList)) : s = other := by
    rw [pathBelow_eq (by simp [Stem.names]) fun _ => hs.isName_of_mem,
      pathBelow_eq (by simp [Stem.names]) fun _ => hother.isName_of_mem] at h
    exact Stem.names_injective (join_injective (by simp [Stem.names]) (by simp [Stem.names])
      (fun name hname => (hs.isName_of_mem hname).slash)
      (fun name hname => (hother.isName_of_mem hname).slash) (List.append_cancel_left h))
  obtain ⟨s, hs, hp, -, hkept, hdots, -⟩ := hplaces _ List.mem_cons_self
  obtain ⟨other, hother, hq, -, hkept', -⟩ := hplaces _ (List.mem_cons_of_mem _ List.mem_cons_self)
  have hdot : s = ⟨[], ['.']⟩ := hstem hs ⟨by simp, by simp, by decide, by decide⟩ (hp ▸ rfl)
  have hcard : other = ⟨[], "card".toList⟩ :=
    hstem hother ⟨by simp, by simp, by decide, by decide⟩ (hq ▸ rfl)
  subst hdot hcard
  refine ⟨templateFiles_dottedCards, ?_, hdots rfl, hkept'.mpr (by decide)⟩
  exact fun heq => absurd rfl (hkept.mp heq)

end Stencil.Disk
