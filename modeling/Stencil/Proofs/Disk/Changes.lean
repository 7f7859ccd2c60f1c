import Stencil.Proofs.Disk.Tree
import Mathlib.Logic.Relation

/-!
# Changes to a tree

Whatever a command does to a tree, it makes directories and writes files one at
a time. Each such change puts a node under a name into a directory, or another
file in place of one, so trees stay well formed, and so they do when files are
removed.
-/

namespace Stencil.Disk

namespace Tree

open Pathname (IsName)

section
variable {t t' : Tree} {p : Pathname} {directory : Location} {name : List Char}

theorem slash_not_mem_of_start {segment : List Char} (h : segment ∈ (t.start p).2) :
    '/' ∉ segment := by
  unfold start at h
  split at h <;> exact Text.not_mem_of_mem_fields h

/-- A place has a name and lies in a directory. -/
theorem isName_of_place {slash : Bool} (h : t.place p = .ok ⟨directory, some name, slash⟩) :
    IsName name ∧ t.isDirectoryAt directory = true := by
  unfold place at h
  split at h
  · cases h
  · dsimp only at h
    split at h
    · cases h
    · next last before hsegments =>
      obtain ⟨found, -, h⟩ := Except.bind_eq_ok h
      split at h
      · next hdirectory =>
        split at h
        · cases h
        · next hdots =>
          cases h
          rw [Bool.or_eq_true, not_or, decide_eq_true_iff, decide_eq_true_iff] at hdots
          have hmem : name ∈ (t.start p).2.reverse :=
            (List.dropWhile_sublist _).mem (hsegments ▸ List.mem_cons_self)
          have hne := List.head?_dropWhile_not (fun segment : List Char => decide (segment = []))
            (t.start p).2.reverse
          rw [hsegments, List.head?_cons] at hne
          exact ⟨⟨by simpa using hne, hdots.1, hdots.2,
            slash_not_mem_of_start (List.mem_reverse.mp hmem)⟩, hdirectory⟩
      · cases h

namespace WellFormed

/-- A node is put under a name into a directory, though no file in place of a directory. -/
theorem set (h : t.WellFormed) (hdirectory : t.isDirectoryAt directory = true)
    (hname : IsName name) {node : Node}
    (hnode : t.isDirectoryAt (directory ++ [name]) = true → node = .directory) :
    (t.set (directory ++ [name]) node).WellFormed := by
  -- What is said of entries is said of their keys, and there is at most one more of these.
  have hkeys {P : Key → Prop} (hnew : P (Location.key (directory ++ [name])))
      (hold : ∀ entry ∈ t.nodes.entries, P entry.1) :
      ∀ entry ∈ (t.set (directory ++ [name]) node).nodes.entries, P entry.1 := by
    intro entry hentry
    obtain heq | hmem := Dictionary.mem_keys_put (List.mem_map_of_mem hentry)
    · rw [heq]
      exact hnew
    · obtain ⟨other, hother, heq⟩ := List.mem_map.mp hmem
      rw [← heq]
      exact hold other hother
  refine ⟨Dictionary.nodup_keys_put h.keys _ _,
    hkeys (P := fun key => key = Location.key key.2) rfl h.key, ?_, ?_, ?_⟩
  · refine hkeys (P := fun key => ∀ name ∈ key.2, IsName name) (fun segment hsegment => ?_) h.names
    obtain hsegment | hsegment := List.mem_append.mp hsegment
    · exact h.isName_of_mem ((t.isSome_node? _).mpr (.inl hdirectory)) hsegment
    · rwa [List.mem_singleton.mp hsegment]
  · refine hkeys (P := fun key => isDirectoryAt _ key.2.dropLast = true) ?_ fun entry hentry =>
      isDirectoryAt_set hnode (h.parent entry hentry)
    rw [Location.key, List.dropLast_concat]
    exact isDirectoryAt_set hnode hdirectory
  · exact isDirectoryAt_set hnode h.here

theorem erase (h : t.WellFormed) {l : Location} (hl : t.isDirectoryAt l = false) :
    (t.erase l).WellFormed := by
  have hkept : ∀ m, t.isDirectoryAt m = true → (t.erase l).isDirectoryAt m = true := by
    intro m hm
    rw [isDirectoryAt_iff] at hm ⊢
    by_cases hroot : m = []
    · rw [hroot]
      rfl
    · rw [node?_erase hroot, if_neg, hm]
      rintro rfl
      rw [isDirectoryAt_iff.mpr hm] at hl
      cases hl
  have hentries : ∀ entry ∈ (t.erase l).nodes.entries, entry ∈ t.nodes.entries :=
    fun _ hentry => (List.mem_filter.mp hentry).1
  exact ⟨h.keys.sublist (List.filter_sublist.map _),
    fun entry hentry => h.key entry (hentries entry hentry),
    fun entry hentry => h.names entry (hentries entry hentry),
    fun entry hentry => hkept _ (h.parent entry (hentries entry hentry)), hkept _ h.here⟩

theorem makeDirectory (h : t.WellFormed) (hmake : t.makeDirectory p = .ok t') : t'.WellFormed := by
  obtain ⟨directory, name, slash, hplace, -, rfl⟩ := makeDirectory_eq_ok hmake
  obtain ⟨hname, hdirectory⟩ := isName_of_place hplace
  exact h.set hdirectory hname fun _ => rfl

theorem write (h : t.WellFormed) {content : ByteArray} (hwrite : t.write p content = .ok t') :
    t'.WellFormed := by
  obtain ⟨directory, name, hplace, hfree, rfl⟩ := write_eq_ok hwrite
  obtain ⟨hname, hdirectory⟩ := isName_of_place hplace
  refine h.set hdirectory hname fun hoccupied => ?_
  rw [hfree] at hoccupied
  cases hoccupied

theorem remove (h : t.WellFormed) (hremove : t.remove p = .ok t') : t'.WellFormed := by
  unfold Tree.remove at hremove
  obtain ⟨l, -, hremove⟩ := Except.bind_eq_ok hremove
  split at hremove
  · cases hremove
  · next hfile =>
    cases hremove
    exact h.erase (by simpa using hfile)

/-- Another working directory. -/
theorem moved (h : t.WellFormed) {here : Location} (hhere : t.isDirectoryAt here = true) :
    ({ t with here } : Tree).WellFormed :=
  ⟨h.keys, h.key, h.names, h.parent, hhere⟩

end WellFormed
end

/-- With the first directories made, the last of them can be the working directory. -/
theorem wellFormed_directoriesTo {here : Location} (h : ∀ name ∈ here, IsName name) {count : Nat}
    (hcount : count ≤ here.length) :
    ({ directoriesTo here count with here := here.take count } : Tree).WellFormed := by
  induction count with
  | zero => exact ⟨List.nodup_nil, nofun, nofun, nofun, rfl⟩
  | succ count ih =>
    have hbefore := ih (Nat.le_of_succ_le hcount)
    have htake : here.take count ++ [here[count]] = here.take (count + 1) :=
      List.take_append_getElem hcount
    have hset := hbefore.set hbefore.here (h here[count] (List.getElem_mem hcount)) fun _ => rfl
    rw [htake] at hset
    have hne : here.take (count + 1) ≠ [] :=
      htake ▸ List.append_ne_nil_of_right_ne_nil _ (List.cons_ne_nil _ _)
    rw [directoriesTo_succ]
    refine hset.moved (isDirectoryAt_iff.mpr ?_)
    rw [node?_set hne, if_pos rfl]

/-- An empty working directory, where its path is made of names. -/
theorem wellFormed_emptyAt {here : Location} (h : ∀ name ∈ here, IsName name) :
    (emptyAt here).WellFormed := by
  have hall := wellFormed_directoriesTo h (Nat.le_refl here.length)
  rw [List.take_length] at hall
  refine ⟨hall.keys, hall.key, hall.names, hall.parent, ?_⟩
  rw [emptyAt, here_directoriesTo]
  exact hall.here

inductive Step (t t' : Tree) : Prop
  | makeDirectory {p : Pathname} (h : t.makeDirectory p = .ok t')
  | write {p : Pathname} {content : ByteArray} (h : t.write p content = .ok t')
  | remove {p : Pathname} (h : t.remove p = .ok t')

theorem WellFormed.step {t t' : Tree} (h : t.WellFormed) (hstep : Step t t') : t'.WellFormed := by
  cases hstep with
  | makeDirectory hmake => exact h.makeDirectory hmake
  | write hwrite => exact h.write hwrite
  | remove hremove => exact h.remove hremove

theorem WellFormed.run {t t' : Tree} (h : t.WellFormed)
    (hrun : Relation.ReflTransGen Step t t') : t'.WellFormed := by
  induction hrun with
  | refl => exact h
  | tail _ hstep ih => exact ih.step hstep

end Tree

open Relation (ReflTransGen)

section
variable (t : Tree)

theorem reaches_deliver (target : Pathname) (text : String) :
    ReflTransGen Tree.Step t (deliver t target text).2 := by
  have hprepared : ReflTransGen Tree.Step t (prepare t target).2 :=
    prepare_keeps (fun h hmake => h.tail (.makeDirectory hmake)) .refl target
  unfold deliver
  split
  · next hprepare =>
    rw [hprepare] at hprepared
    exact hprepared
  · next hprepare =>
    rw [hprepare] at hprepared
    split
    · exact hprepared
    · next hwrite => exact hprepared.tail (.write hwrite)

theorem reaches_convertFile (o : Options) (root : Option Pathname) (p : Pathname) :
    ReflTransGen Tree.Step t (convertFile t o root p).2 := by
  unfold convertFile
  split
  · exact .refl
  · next text d _ =>
    split
    · exact .refl
    · next target _ =>
      have hdelivered := reaches_deliver t target text
      cases hdeliver : deliver t target text with
      | mk result t' =>
        rw [hdeliver] at hdelivered
        cases result <;> exact hdelivered

theorem reaches_convertFiles (o : Options) (root : Option Pathname) (files : List Pathname) :
    ReflTransGen Tree.Step t (convertFiles t o root files).2 := by
  induction files generalizing t with
  | nil => exact .refl
  | cons p rest ih =>
    have hfirst := reaches_convertFile t o root p
    rw [convertFiles]
    split
    · next hconvert =>
      rw [hconvert] at hfirst
      exact hfirst
    · next c middle hconvert =>
      rw [hconvert] at hfirst
      have hrest := ih middle
      cases hmore : convertFiles middle o root rest with
      | mk result t' =>
        rw [hmore] at hrest
        cases result <;> exact hfirst.trans hrest

theorem reaches_convertPath (o : Options) (p : Pathname) :
    ReflTransGen Tree.Step t (convertPath t o p).2 := by
  unfold convertPath
  split
  · exact reaches_convertFiles t o _ _
  · split
    · exact .refl
    · exact reaches_convertFiles t o _ _

end
end Stencil.Disk
