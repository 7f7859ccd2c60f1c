import Stencil.Disk.Convert
import Stencil.Proofs.Disk.Pathname
import Stencil.Proofs.Except
import Mathlib.Data.List.Induction

/-!
# Trees that grow

Making directories and writing files takes nothing away: directories stay
directories, files stay files, and a path that leads somewhere leads there ever
after. Only the files that are written have other bytes afterwards.
-/

namespace Stencil.Disk

open Pathname (IsName)

namespace Tree

def file? (t : Tree) (location : Location) : Option ByteArray :=
  match t.node? location with
  | some (.file content) => some content
  | _ => none

theorem file?_eq_some {t : Tree} {l : Location} {content : ByteArray} :
    t.file? l = some content ↔ t.node? l = some (.file content) := by
  unfold file?
  split <;> simp_all

theorem isDirectoryAt_iff {t : Tree} {l : Location} :
    t.isDirectoryAt l = true ↔ t.node? l = some .directory := by
  unfold isDirectoryAt
  split <;> simp_all

theorem isDirectoryAt_root (t : Tree) : t.isDirectoryAt [] = true := rfl

/-- A node is a directory or a file. -/
theorem isSome_node? (t : Tree) (l : Location) :
    (t.node? l).isSome = true ↔ t.isDirectoryAt l = true ∨ (t.file? l).isSome = true := by
  cases h : t.node? l with
  | none => simp [isDirectoryAt, file?, h]
  | some node => cases node <;> simp [isDirectoryAt, file?, h]

/-- A later tree, where files may have been written at some places and directories made. -/
structure Within (places : List Location) (t t' : Tree) : Prop where
  here : t'.here = t.here
  directories : ∀ l, t.isDirectoryAt l = true → t'.isDirectoryAt l = true
  present : ∀ l, (t.file? l).isSome = true → (t'.file? l).isSome = true
  files : ∀ l, l ∉ places → t'.file? l = t.file? l

namespace Within

variable {places more : List Location} {t t' t'' : Tree}

theorem refl (t : Tree) : Within [] t t where
  here := rfl
  directories _ h := h
  present _ h := h
  files _ _ := rfl

theorem trans (h : Within places t t') (h' : Within more t' t'') :
    Within (places ++ more) t t'' where
  here := h'.here.trans h.here
  directories l hl := h'.directories l (h.directories l hl)
  present l hl := h'.present l (h.present l hl)
  files l hl := by
    rw [List.mem_append, not_or] at hl
    rw [h'.files l hl.2, h.files l hl.1]

theorem isSome_node? (h : Within places t t') {l : Location} (hl : (t.node? l).isSome = true) :
    (t'.node? l).isSome = true := by
  rw [Tree.isSome_node?] at hl ⊢
  exact hl.imp (h.directories l) (h.present l)

/-- A path that leads somewhere goes on leading there. -/
theorem follow (h : Within places t t') {l found : Location} {segments : List (List Char)}
    (hfollow : t.follow l segments = .ok found) : t'.follow l segments = .ok found := by
  induction segments generalizing l with
  | nil => exact hfollow
  | cons segment segments ih =>
    unfold Tree.follow at hfollow ⊢
    split at hfollow
    · next hdirectory =>
      rw [if_pos (h.directories l hdirectory)]
      split at hfollow
      · next hskipped =>
        rw [if_pos hskipped]
        exact ih hfollow
      · next hskipped =>
        rw [if_neg hskipped]
        split at hfollow
        · next hup =>
          rw [if_pos hup]
          exact ih hfollow
        · next hup =>
          rw [if_neg hup]
          split at hfollow
          · cases hfollow
          · next node hnode =>
            obtain ⟨node', hnode'⟩ := Option.isSome_iff_exists.mp
              (h.isSome_node? (l := l ++ [segment]) (by rw [hnode]; rfl))
            rw [hnode']
            exact ih hfollow
    · cases hfollow

end Within

/-- Where the segments of a path are followed from. -/
def origin (t : Tree) (p : Pathname) : Location :=
  if p.head? = some '/' then [] else t.here

/-- The empty segment before a slash at the start counts for nothing. -/
theorem follow_start (t : Tree) (p : Pathname) :
    t.follow (t.start p).1 (t.start p).2 = t.follow (t.origin p) (Text.fields '/' p) := by
  unfold start origin
  split
  · rw [Text.fields, if_pos rfl, if_pos List.head?_cons, follow, if_pos t.isDirectoryAt_root]
    rfl
  · next hstart =>
    rw [if_neg]
    intro hhead
    obtain ⟨s, rfl⟩ := List.head?_eq_some_iff.mp hhead
    exact hstart s rfl

theorem locate_eq_ok {t : Tree} {p : Pathname} {l : Location} :
    t.locate p = .ok l ↔
      refusal? p = none ∧ t.follow (t.origin p) (Text.fields '/' p) = .ok l := by
  rw [← follow_start, locate]
  cases refusal? p <;> simp

theorem Within.origin {places : List Location} {t t' : Tree} (h : Within places t t')
    (p : Pathname) : t'.origin p = t.origin p := by
  rw [Tree.origin, Tree.origin, h.here]

theorem Within.locate {places : List Location} {t t' : Tree} (h : Within places t t')
    {p : Pathname} {l : Location} (hlocate : t.locate p = .ok l) : t'.locate p = .ok l := by
  rw [locate_eq_ok] at hlocate ⊢
  rw [h.origin]
  exact ⟨hlocate.1, h.follow hlocate.2⟩

theorem stat_of_locate {t : Tree} {p : Pathname} {l : Location} {content : ByteArray}
    (hlocate : t.locate p = .ok l) (hfile : t.file? l = some content) :
    t.stat p = .ok (.file content) := by
  simp only [stat, hlocate, Bind.bind, Except.bind, file?_eq_some.mp hfile]

/-- The path of a file leads to the file. -/
theorem exists_file {t : Tree} {p : Pathname} (h : t.isFile p = true) :
    ∃ l content, t.locate p = .ok l ∧ t.file? l = some content := by
  unfold isFile at h
  split at h
  · next content hstat =>
    obtain ⟨l, hlocate, hnode⟩ := Except.bind_eq_ok hstat
    split at hnode
    · next hfound =>
      cases hnode
      exact ⟨l, content, hlocate, file?_eq_some.mpr hfound⟩
    · cases hnode
  · cases h

/-- What is found at a path depends on its location. -/
theorem read_of_locate {t : Tree} {p : Pathname} {l : Location} {content : ByteArray}
    (hlocate : t.locate p = .ok l) (hfile : t.file? l = some content) :
    t.read p = match String.fromUTF8? content with
      | some text => .ok text
      | none => .error .notText := by
  have hstat := stat_of_locate hlocate hfile
  cases hdecoded : String.fromUTF8? content <;> simp only [read, hstat, hdecoded]

theorem follow_append {t : Tree} {l found : Location} {front back : List (List Char)} :
    t.follow l (front ++ back) = .ok found ↔
      ∃ middle, t.follow l front = .ok middle ∧ t.follow middle back = .ok found := by
  induction front generalizing l with
  | nil => simp [follow]
  | cons segment front ih =>
    rw [List.cons_append, follow, follow]
    split
    · split
      · exact ih
      · split
        · exact ih
        · split
          · simp
          · exact ih
    · simp

/-- A name leads to the node it names. -/
theorem follow_name {t : Tree} {l : Location} {name : List Char}
    (hdirectory : t.isDirectoryAt l = true) (hname : IsName name)
    (hnode : (t.node? (l ++ [name])).isSome = true) : t.follow l [name] = .ok (l ++ [name]) := by
  obtain ⟨node, hnode⟩ := Option.isSome_iff_exists.mp hnode
  rw [follow, if_pos hdirectory, hname.not_skipped, if_neg hname.ne_up, hnode]
  rfl

/-- Names lead downwards. -/
theorem eq_append_of_follow {t : Tree} {l found : Location} {names : List (List Char)}
    (hnames : ∀ name ∈ names, IsName name) (h : t.follow l names = .ok found) :
    found = l ++ names := by
  induction names generalizing l with
  | nil =>
    cases h
    rw [List.append_nil]
  | cons name names ih =>
    rw [List.forall_mem_cons] at hnames
    rw [follow, hnames.1.not_skipped, if_neg hnames.1.ne_up] at h
    split at h
    · split at h
      · next hfalse => cases hfalse
      · split at h
        · cases h
        · rw [ih hnames.2 h, List.append_assoc, List.singleton_append]
    · cases h

theorem exists_start {t : Tree} {p : Pathname} {segments : List (List Char)} {name : List Char}
    (hfields : Text.fields '/' p = segments ++ [name]) (hname : name ≠ []) :
    ∃ front, (t.start p).2 = front ++ [name] ∧
      t.follow (t.start p).1 front = t.follow (t.origin p) segments := by
  unfold start origin
  split
  · rw [Text.fields, if_pos rfl] at hfields
    cases segments with
    | nil => exact absurd (List.cons.inj hfields).1.symm hname
    | cons first front =>
      obtain ⟨rfl, hrest⟩ := List.cons.inj hfields
      refine ⟨front, hrest, ?_⟩
      rw [if_pos List.head?_cons, follow.eq_def t [] ([] :: front)]
      rfl
  · next hstart =>
    refine ⟨segments, hfields, ?_⟩
    rw [if_neg]
    intro hhead
    obtain ⟨s, rfl⟩ := List.head?_eq_some_iff.mp hhead
    exact hstart s rfl

/-- The place of a path that ends with its last segment. -/
theorem place_eq_ok {t : Tree} {p : Pathname} {segments : List (List Char)} {last name : List Char}
    {directory : Location} {slash : Bool} (hfields : Text.fields '/' p = segments ++ [last])
    (hlast : last ≠ []) (h : t.place p = .ok ⟨directory, some name, slash⟩) :
    refusal? p = none ∧ name = last ∧ last ≠ ['.', '.'] ∧
      t.follow (t.origin p) segments = .ok directory ∧ t.isDirectoryAt directory = true := by
  obtain ⟨front, hfront, hfollow⟩ := exists_start (t := t) hfields hlast
  unfold place at h
  split at h
  · cases h
  · next hrefusal =>
    dsimp only at h
    rw [hfront, List.reverse_append, List.reverse_singleton, List.singleton_append,
      List.dropWhile_cons_of_neg (by simpa using hlast)] at h
    dsimp only at h
    rw [List.reverse_reverse, hfollow] at h
    obtain ⟨found, hfound, h⟩ := Except.bind_eq_ok h
    split at h
    · next hdirectory =>
      split at h
      · cases h
      · next hdots =>
        cases h
        rw [Bool.or_eq_true, not_or, decide_eq_true_iff, decide_eq_true_iff] at hdots
        exact ⟨hrefusal, rfl, hdots.2, hfound, hdirectory⟩
    · cases h

section
variable {t t' : Tree} {p : Pathname}

/-- Directories stay while nothing else takes their place. -/
theorem isDirectoryAt_set {l m : Location} {node : Node}
    (hnode : t.isDirectoryAt l = true → node = .directory) (h : t.isDirectoryAt m = true) :
    (t.set l node).isDirectoryAt m = true := by
  rw [isDirectoryAt_iff] at h ⊢
  by_cases hroot : m = []
  · rw [hroot]
    rfl
  · rw [node?_set hroot]
    split
    · next heq =>
      rw [hnode (isDirectoryAt_iff.mpr (heq ▸ h))]
    · exact h

theorem node?_set_of_ne {l m : Location} {node : Node} (h : m ≠ l) :
    (t.set l node).node? m = t.node? m := by
  by_cases hroot : m = []
  · rw [hroot]
    rfl
  · rw [node?_set hroot, if_neg (Ne.symm h)]

theorem within_set_directory {l : Location} (h : t.node? l = none) :
    Within [] t (t.set l .directory) := by
  have hfiles : ∀ m, (t.set l .directory).file? m = t.file? m := by
    intro m
    by_cases heq : m = l
    · subst heq
      have hroot : m ≠ [] := by
        rintro rfl
        cases h
      rw [file?, node?_set hroot, if_pos rfl, file?, h]
    · rw [file?, node?_set_of_ne heq, file?]
  refine ⟨rfl, fun m => isDirectoryAt_set fun _ => rfl, fun m hm => ?_, fun m _ => hfiles m⟩
  rwa [hfiles]

theorem within_set_file {l : Location} (hroot : l ≠ []) (h : t.isDirectoryAt l = false)
    (content : ByteArray) : Within [l] t (t.set l (.file content)) ∧
      (t.set l (.file content)).file? l = some content := by
  have hwritten : (t.set l (.file content)).file? l = some content := by
    rw [file?_eq_some, node?_set hroot, if_pos rfl]
  have hfiles : ∀ m, m ≠ l → (t.set l (.file content)).file? m = t.file? m := by
    intro m hm
    rw [file?, node?_set_of_ne hm, file?]
  refine ⟨⟨rfl, fun m => isDirectoryAt_set ?_, ?_, ?_⟩, hwritten⟩
  · rw [h]
    exact nofun
  · intro m hm
    by_cases heq : m = l
    · rw [heq, hwritten]
      rfl
    · rwa [hfiles m heq]
  · exact fun m hm => hfiles m (by simpa using hm)

/-- A directory is made where there is nothing. -/
theorem makeDirectory_eq_ok (h : t.makeDirectory p = .ok t') :
    ∃ directory name slash, t.place p = .ok ⟨directory, some name, slash⟩ ∧
      t.node? (directory ++ [name]) = none ∧ t' = t.set (directory ++ [name]) .directory := by
  unfold makeDirectory at h
  obtain ⟨⟨directory, name, slash⟩, hplace, h⟩ := Except.bind_eq_ok h
  cases name with
  | none => cases h
  | some name =>
    dsimp only at h
    split at h
    · cases h
    · next hnone =>
      unfold putAt at h
      split at h
      · cases h
      · cases h
        exact ⟨directory, name, slash, hplace, hnone, rfl⟩

theorem within_makeDirectory (h : t.makeDirectory p = .ok t') : Within [] t t' := by
  obtain ⟨directory, name, slash, -, hnone, rfl⟩ := makeDirectory_eq_ok h
  exact within_set_directory hnone

/-- What making one directory keeps, making many of them keeps, also where it fails half way. -/
theorem makeChain_keeps {P : Tree → Prop}
    (hstep : ∀ {t t' : Tree} {p : Pathname}, P t → t.makeDirectory p = .ok t' → P t')
    (h : P t) (paths : List Pathname) : P (t.makeChain paths).2 := by
  induction paths generalizing t with
  | nil => exact h
  | cons p outer ih =>
    rw [makeChain]
    split
    · next t' hmake => exact hstep h hmake
    · have houter := ih h
      split
      · next e t' hchain =>
        rw [hchain] at houter
        exact houter
      · next t' hchain =>
        rw [hchain] at houter
        split
        · next hmake => exact hstep houter hmake
        · split <;> exact houter
    · split <;> exact h

/-- A file is written to the place that its path names, where there is no directory. -/
theorem write_eq_ok {content : ByteArray} (h : t.write p content = .ok t') :
    ∃ directory name, t.place p = .ok ⟨directory, some name, false⟩ ∧
      t.isDirectoryAt (directory ++ [name]) = false ∧
        t' = t.set (directory ++ [name]) (.file content) := by
  unfold write at h
  obtain ⟨⟨directory, name, slash⟩, hplace, h⟩ := Except.bind_eq_ok h
  cases name with
  | none => cases h
  | some name =>
    dsimp only at h
    split at h
    · cases h
    · next hfree =>
      rw [Bool.or_eq_true, not_or] at hfree
      obtain ⟨hslash, hdirectory⟩ := hfree
      rw [Bool.not_eq_true] at hslash hdirectory
      unfold putAt at h
      split at h
      · cases h
      · cases h
        subst hslash
        exact ⟨directory, name, hplace, hdirectory, rfl⟩

end

/-- Every node has a place of its own in a directory, and the working directory is one. -/
structure WellFormed (t : Tree) : Prop where
  keys : (t.nodes.entries.map (·.1)).Nodup
  key : ∀ entry ∈ t.nodes.entries, entry.1 = Location.key entry.1.2
  names : ∀ entry ∈ t.nodes.entries, ∀ name ∈ entry.1.2, IsName name
  parent : ∀ entry ∈ t.nodes.entries, t.isDirectoryAt entry.1.2.dropLast = true
  here : t.isDirectoryAt t.here = true

namespace WellFormed

instance (t : Tree) : Decidable t.WellFormed :=
  decidable_of_iff ((t.nodes.entries.map (·.1)).Nodup ∧
      (∀ entry ∈ t.nodes.entries, entry.1 = Location.key entry.1.2) ∧
      (∀ entry ∈ t.nodes.entries, ∀ name ∈ entry.1.2, IsName name) ∧
      (∀ entry ∈ t.nodes.entries, t.isDirectoryAt entry.1.2.dropLast = true) ∧
      t.isDirectoryAt t.here = true)
    ⟨fun ⟨hkeys, hkey, hnames, hparent, hhere⟩ => ⟨hkeys, hkey, hnames, hparent, hhere⟩,
      fun h => ⟨h.keys, h.key, h.names, h.parent, h.here⟩⟩

variable {t : Tree} (h : t.WellFormed)
include h

theorem node?_eq_some_iff {l : Location} (hroot : l ≠ []) {node : Node} :
    t.node? l = some node ↔ (Location.key l, node) ∈ t.nodes.entries := by
  rw [node?, if_neg hroot, Dictionary.get?_eq_some_iff h.keys]

theorem isName_of_mem {l : Location} (hl : (t.node? l).isSome = true) {name : List Char}
    (hname : name ∈ l) : IsName name := by
  obtain ⟨node, hnode⟩ := Option.isSome_iff_exists.mp hl
  exact h.names _ ((h.node?_eq_some_iff (List.ne_nil_of_mem hname)).mp hnode) name hname

/-- What lies above a node is a directory. -/
theorem isDirectoryAt_of_append {l : Location} {names : List (List Char)} (hne : names ≠ [])
    (hnode : (t.node? (l ++ names)).isSome = true) : t.isDirectoryAt l = true := by
  induction names using List.reverseRecOn with
  | nil => exact absurd rfl hne
  | append_singleton names name ih =>
    rw [← List.append_assoc] at hnode
    obtain ⟨node, hnode⟩ := Option.isSome_iff_exists.mp hnode
    have hparent := h.parent _ ((h.node?_eq_some_iff (by simp)).mp hnode)
    rw [Location.key, List.dropLast_concat] at hparent
    by_cases hnames : names = []
    · rwa [hnames, List.append_nil] at hparent
    · exact ih hnames ((t.isSome_node? _).mpr (.inl hparent))

theorem isDirectoryAt_dropLast {l : Location} (hl : t.isDirectoryAt l = true) :
    t.isDirectoryAt l.dropLast = true := by
  by_cases hroot : l = []
  · rw [hroot]
    rfl
  · rw [isDirectoryAt_iff, h.node?_eq_some_iff hroot] at hl
    exact h.parent _ hl

/-- The names below a directory lead to what lies there. -/
theorem follow_below {l : Location} {names : List (List Char)}
    (hnode : (t.node? (l ++ names)).isSome = true) : t.follow l names = .ok (l ++ names) := by
  induction names generalizing l with
  | nil => rw [follow, List.append_nil]
  | cons name names ih =>
    have hname := h.isName_of_mem hnode (List.mem_append_right l List.mem_cons_self)
    have hdirectory := h.isDirectoryAt_of_append (List.cons_ne_nil name names) hnode
    rw [← List.singleton_append, ← List.append_assoc] at hnode
    have hnext : (t.node? (l ++ [name])).isSome = true := by
      by_cases hnames : names = []
      · rwa [hnames, List.append_nil] at hnode
      · exact (t.isSome_node? _).mpr (.inl (h.isDirectoryAt_of_append hnames hnode))
    rw [← List.singleton_append, ← List.append_assoc, follow_append]
    exact ⟨l ++ [name], follow_name hdirectory hname hnext, ih hnode⟩

end WellFormed

end Tree

/-- What making one directory keeps, making those around a target keeps. -/
theorem prepare_keeps {P : Tree → Prop}
    (hstep : ∀ {t t' : Tree} {p : Pathname}, P t → t.makeDirectory p = .ok t' → P t') {t : Tree}
    (h : P t) (target : Pathname) : P (prepare t target).2 := by
  unfold prepare
  split
  · exact h
  · next parent _ =>
    have hmade : P (t.makeDirectories parent).2 := Tree.makeChain_keeps hstep h _
    cases hmake : t.makeDirectories parent with
    | mk result t' =>
      rw [hmake] at hmade
      cases result <;> exact hmade

end Stencil.Disk
