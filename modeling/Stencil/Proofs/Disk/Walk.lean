import Stencil.Proofs.Disk.Below
import Stencil.Proofs.Disk.Tree
import Mathlib.Data.List.Nodup

/-!
# Walks

A walk from a directory lists the templates below it, each once and under a
path that leads to it.
-/

namespace Stencil.Disk

open Pathname

namespace Tree

section
variable {t : Tree} {d p : Pathname} {l : Location}

/-- A path below a directory starts where the directory's path does. -/
theorem origin_opened (h : p.head? ≠ some '/') : t.origin (opened d ++ p) = t.origin d := by
  cases d with
  | nil =>
    rw [opened, if_pos (by simp), List.nil_append, origin, if_neg h, origin, if_neg (by simp)]
  | cons c s =>
    have hopened : ∃ rest, opened (c :: s) = c :: rest := by
      unfold opened
      split
      · exact ⟨s, rfl⟩
      · exact ⟨s ++ ['/'], rfl⟩
    obtain ⟨rest, hrest⟩ := hopened
    rw [origin, origin, hrest, List.cons_append, List.head?_cons, List.head?_cons]

/-- A directory's path leads where the names that follow it start. -/
theorem follow_front (h : t.locate d = .ok l) : t.follow (t.origin d) (front d) = .ok l := by
  obtain ⟨hrefusal, hfollow⟩ := locate_eq_ok.mp h
  have hne : d ≠ [] := by
    rintro rfl
    cases hrefusal
  have hfront (e : Pathname) : (Text.fields '/' (e ++ ['/'])).dropLast = Text.fields '/' e := by
    rw [Text.fields_append, Text.fields, List.dropLast_concat]
  rw [front, opened]
  split
  · next hslash =>
    have hlast : d.getLast? = some '/' := by simpa [hne] using hslash
    obtain ⟨e, rfl⟩ := List.getLast?_eq_some_iff.mp hlast
    rw [Text.fields_append, follow_append] at hfollow
    obtain ⟨middle, hmiddle, hlast⟩ := hfollow
    rw [Text.fields, follow] at hlast
    split at hlast
    · rw [hfront, hmiddle]
      exact hlast
    · cases hlast
  · rw [hfront, hfollow]

theorem stat_of_isDirectory (h : t.isDirectory p = true) : t.stat p = .ok .directory := by
  unfold isDirectory at h
  split at h
  · assumption
  · cases h

theorem relative?_eq_some {directory location below : Location}
    (h : relative? directory location = some below) :
    below ≠ [] ∧ location = directory ++ below := by
  unfold relative? at h
  split at h
  · cases h
  · next found =>
    refine ⟨?_, Text.eq_append_of_behind? h⟩
    rintro rfl
    exact found h

end

theorem map_entriesBelow (t : Tree) (directory : Location) :
    (t.entriesBelow directory).map (·.1) =
      (t.nodes.entries.map (·.1.2)).filterMap (relative? directory) := by
  rw [entriesBelow, List.map_filterMap, List.filterMap_map]
  congr 1
  funext entry
  rw [Option.map_map]
  exact Option.map_id'

namespace WellFormed

variable {t : Tree} (h : t.WellFormed)
include h

/-- What a walk meets lies in the tree below the directory. -/
theorem node?_of_mem_nodesBelow {directory below : Location} {node : Node}
    (hmem : (below, node) ∈ t.nodesBelow directory) :
    below ≠ [] ∧ t.node? (directory ++ below) = some node := by
  rw [nodesBelow, List.mem_mergeSort, entriesBelow, List.mem_filterMap] at hmem
  obtain ⟨⟨⟨count, location⟩, found⟩, hentry, hmap⟩ := hmem
  obtain ⟨names, hrelative, hpair⟩ := Option.map_eq_some_iff.mp hmap
  cases hpair
  obtain ⟨hne, rfl⟩ := relative?_eq_some hrelative
  refine ⟨hne, (h.node?_eq_some_iff (by simp [hne])).mpr ?_⟩
  have hkey : ((count, directory ++ below) : Key) = Location.key (directory ++ below) :=
    h.key _ hentry
  rw [← hkey]
  exact hentry

/-- A walk meets nothing twice. -/
theorem nodup_nodesBelow (directory : Location) :
    ((t.nodesBelow directory).map (·.1)).Nodup := by
  have hlocations : (t.nodes.entries.map (·.1.2)).Nodup := by
    apply List.Nodup.of_map Location.key
    rw [List.map_map]
    have hkeys := h.keys
    rwa [List.map_congr_left h.key] at hkeys
  have hperm : (t.nodesBelow directory).Perm (t.entriesBelow directory) :=
    List.mergeSort_perm _ _
  rw [(hperm.map (·.1)).nodup_iff, map_entriesBelow]
  refine hlocations.filterMap fun location other below hmem hother => ?_
  rw [(relative?_eq_some hmem).2, (relative?_eq_some hother).2]

end WellFormed
end Tree

/-- Whether a walk lists what it meets. -/
def lists (o : Options) (entry : Pathname × Node) : Bool :=
  entry.2.isFile && isTemplate o entry.1 && (refusal? entry.1).isNone

/-- The names below the root of all that a walk from it lists. -/
def Tree.namesListed (t : Tree) (o : Options) (root : Pathname) (top : Location) : List Location :=
  ((t.nodesBelow top).filter fun entry => lists o (pathBelow root entry.1, entry.2)).map (·.1)

theorem listTemplates_eq_ok {o : Options} {root : Pathname} {entries : List (Pathname × Node)}
    {files : List Pathname} (h : listTemplates o root entries = .ok files) :
    files = (entries.filter (lists o)).map (·.1) := by
  induction entries generalizing files with
  | nil =>
    cases h
    rfl
  | cons entry entries ih =>
    obtain ⟨p, node⟩ := entry
    rw [listTemplates] at h
    split at h
    · cases h
    · split at h
      · next hkept =>
        have hkept : lists o (p, node) = true := hkept
        cases hrest : listTemplates o root entries with
        | error e =>
          rw [hrest] at h
          cases h
        | ok rest =>
          rw [hrest] at h
          cases h
          rw [List.filter_cons_of_pos hkept, List.map_cons, ← ih hrest]
      · next hkept =>
        have hkept : ¬ lists o (p, node) = true := hkept
        rw [List.filter_cons_of_neg hkept, ih h]

/-- A template that is listed below a root: where it lies, and that its path leads there. -/
structure Listed (t : Tree) (o : Options) (root : Pathname) (top : Location) (s : Stem) : Prop where
  spelled : s.Spelled o.sourceExtension.toList
  located : t.locate (s.template o root) = .ok (top ++ s.names o.sourceExtension.toList)
  present : (t.file? (top ++ s.names o.sourceExtension.toList)).isSome = true

theorem exists_map_eq {α β : Type} {P : β → Prop} {f : β → α} {xs : List α}
    (h : ∀ x ∈ xs, ∃ y, P y ∧ x = f y) : ∃ ys : List β, (∀ y ∈ ys, P y) ∧ xs = ys.map f := by
  induction xs with
  | nil => exact ⟨[], by simp, rfl⟩
  | cons x xs ih =>
    rw [List.forall_mem_cons] at h
    obtain ⟨y, hy, rfl⟩ := h.1
    obtain ⟨ys, hys, rfl⟩ := ih h.2
    exact ⟨y :: ys, List.forall_mem_cons.mpr ⟨hy, hys⟩, rfl⟩

section
variable {t : Tree} (ht : t.WellFormed) {o : Options} {root : Pathname} {top : Location}
include ht

/-- What a walk lists is a template. -/
theorem exists_listed (hroot : t.locate root = .ok top) {below : Location} {node : Node}
    (hmem : (below, node) ∈ t.nodesBelow top)
    (hlists : lists o (pathBelow root below, node) = true) :
    ∃ s : Stem, Listed t o root top s ∧ below = s.names o.sourceExtension.toList := by
  have hne : root ≠ [] := by
    rintro rfl
    cases (Tree.locate_eq_ok.mp hroot).1
  obtain ⟨hbelow, hnode⟩ := ht.node?_of_mem_nodesBelow hmem
  have hnames : ∀ name ∈ below, IsName name := fun name hname =>
    ht.isName_of_mem (by rw [hnode]; rfl) (List.mem_append_right top hname)
  rw [lists, pathBelow_eq hbelow hnames, Bool.and_eq_true, Bool.and_eq_true,
    Option.isNone_iff_eq_none] at hlists
  obtain ⟨⟨hfile, htemplate⟩, hrefusal⟩ := hlists
  obtain ⟨s, hspelled, rfl⟩ := Stem.exists_of_isTemplate hne hbelow hnames htemplate
  refine ⟨s, ⟨hspelled, ?_, ?_⟩, rfl⟩
  · refine Tree.locate_eq_ok.mpr ⟨hrefusal, ?_⟩
    have hhead : (join (s.names o.sourceExtension.toList)).head? ≠ some '/' :=
      head?_join_ne fun name hname =>
        have hname := hnames name (List.mem_of_mem_head? hname)
        ⟨hname.ne_nil, hname.slash⟩
    rw [Stem.template, Stem.path, Tree.origin_opened hhead, fields_opened_append,
      fields_join hbelow fun name hname => (hnames name hname).slash, Tree.follow_append]
    exact ⟨top, Tree.follow_front hroot, ht.follow_below (by rw [hnode]; rfl)⟩
  · cases node with
    | file content => rw [Tree.file?_eq_some.mpr hnode]; rfl
    | directory => cases hfile

omit ht in
theorem listTemplates_nodesBelow {files : List Pathname}
    (h : listTemplates o root ((t.nodesBelow top).map fun (below, node) =>
      (pathBelow root below, node)) = .ok files) :
    files = (t.namesListed o root top).map (pathBelow root) := by
  rw [listTemplates_eq_ok h, List.filter_map, List.map_map, Tree.namesListed, List.map_map]
  rfl

/-- The templates that a walk from a directory lists. -/
theorem templateFiles_eq_ok {files : List Pathname} (hroot : t.isDirectory root = true)
    (h : templateFiles t o root = .ok files) :
    ∃ (top : Location) (stems : List Stem),
      files = stems.map (·.template o root) ∧ stems.Nodup ∧
      ∀ s ∈ stems, Listed t o root top s := by
  have hstat := Tree.stat_of_isDirectory hroot
  rw [templateFiles, Tree.isFile, hstat, if_neg Bool.false_ne_true] at h
  split at h
  · cases h
  · next top htop =>
    have hnodup : (t.namesListed o root top).Nodup :=
      (ht.nodup_nodesBelow top).sublist (List.filter_sublist.map _)
    have hlisted : ∀ below ∈ t.namesListed o root top, ∃ s : Stem, Listed t o root top s ∧
        below = s.names o.sourceExtension.toList := by
      intro below hbelow
      obtain ⟨⟨names, node⟩, hentry, rfl⟩ := List.mem_map.mp hbelow
      obtain ⟨hmem, hlists⟩ := List.mem_filter.mp hentry
      exact exists_listed ht htop hmem hlists
    obtain ⟨stems, hstems, hnames⟩ := exists_map_eq hlisted
    refine ⟨top, stems, ?_, ?_, hstems⟩
    · rw [listTemplates_nodesBelow h, hnames, List.map_map]
      apply List.map_congr_left
      intro s hs
      have hspelled := (hstems s hs).spelled
      exact pathBelow_eq (by simp [Stem.names]) fun name => hspelled.isName_of_mem
    · rw [hnames] at hnodup
      exact hnodup.of_map _

end

end Stencil.Disk
