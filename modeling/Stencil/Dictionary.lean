/-!
# Dictionaries

A finite map kept as its entries in the order in which their keys first came.
Writing to a key that is present replaces its value in place, so no key stands
twice in a dictionary that was built by writing.
-/

namespace Stencil

structure Dictionary (κ ν : Type) where
  entries : List (κ × ν) := []
deriving Repr, DecidableEq

namespace Dictionary

variable {κ ν : Type} [DecidableEq κ]

def empty : Dictionary κ ν := ⟨[]⟩

instance : Inhabited (Dictionary κ ν) := ⟨empty⟩

def find? (key : κ) : List (κ × ν) → Option ν
  | [] => none
  | (k, v) :: entries => if k = key then some v else find? key entries

def get? (d : Dictionary κ ν) (key : κ) : Option ν :=
  find? key d.entries

def write (key : κ) (value : ν) : List (κ × ν) → List (κ × ν)
  | [] => [(key, value)]
  | (k, v) :: entries =>
    if k = key then (k, value) :: entries else (k, v) :: write key value entries

def put (d : Dictionary κ ν) (key : κ) (value : ν) : Dictionary κ ν :=
  ⟨write key value d.entries⟩

def erase (d : Dictionary κ ν) (key : κ) : Dictionary κ ν :=
  ⟨d.entries.filter fun entry => entry.1 ≠ key⟩

/-- All entries of `e` written to `d`, from first to last. -/
def putAll (d e : Dictionary κ ν) : Dictionary κ ν :=
  e.entries.foldl (fun d entry => d.put entry.1 entry.2) d

/-- A dictionary from entries, of which later ones replace earlier ones. -/
def ofList (entries : List (κ × ν)) : Dictionary κ ν :=
  putAll empty ⟨entries⟩

@[simp] theorem get?_empty (key : κ) : (empty : Dictionary κ ν).get? key = none := rfl

private theorem find?_write (key k : κ) (value : ν) (entries : List (κ × ν)) :
    find? k (write key value entries) = if key = k then some value else find? k entries := by
  induction entries with
  | nil => simp [write, find?]
  | cons entry entries ih =>
    obtain ⟨k', v⟩ := entry
    by_cases hk : k' = key
    · subst hk
      by_cases h : k' = k <;> simp [write, find?, h]
    · by_cases h : k' = k
      · subst h
        simp [write, find?, hk, Ne.symm hk]
      · simp [write, find?, hk, h, ih]

theorem get?_put (d : Dictionary κ ν) (key k : κ) (value : ν) :
    (d.put key value).get? k = if key = k then some value else d.get? k :=
  find?_write key k value d.entries

theorem find?_append (key : κ) (entries more : List (κ × ν)) :
    find? key (entries ++ more) = (find? key entries).or (find? key more) := by
  induction entries with
  | nil => rfl
  | cons entry entries ih =>
    obtain ⟨k, v⟩ := entry
    rw [List.cons_append, find?, find?]
    split
    · rfl
    · exact ih

/-- Of several entries that are written under one key the last one stays. -/
theorem get?_putAll (d e : Dictionary κ ν) (key : κ) :
    (d.putAll e).get? key = (find? key e.entries.reverse).or (d.get? key) := by
  obtain ⟨entries⟩ := e
  rw [putAll]
  induction entries generalizing d with
  | nil => rfl
  | cons entry entries ih =>
    obtain ⟨k, v⟩ := entry
    rw [List.foldl_cons, ih, get?_put, List.reverse_cons, find?_append, find?, find?,
      Option.or_assoc]
    split <;> rfl

private theorem find?_filter (key k : κ) (entries : List (κ × ν)) :
    find? k (entries.filter fun entry => entry.1 ≠ key) =
      if key = k then none else find? k entries := by
  induction entries with
  | nil => simp [find?]
  | cons entry entries ih =>
    obtain ⟨k', v⟩ := entry
    by_cases hk : k' = key
    · subst hk
      by_cases h : k' = k <;> simp_all [find?]
    · by_cases h : k' = k
      · subst h
        simp [hk, find?, Ne.symm hk]
      · simp only [ne_eq, hk, not_false_eq_true, decide_true, List.filter_cons_of_pos, find?, h,
          if_false]
        exact ih

theorem get?_erase (d : Dictionary κ ν) (key k : κ) :
    (d.erase key).get? k = if key = k then none else d.get? k :=
  find?_filter key k d.entries

/-- Where no key stands twice, the value under a key is the one it stands with. -/
theorem get?_eq_some_iff {d : Dictionary κ ν} (hkeys : (d.entries.map (·.1)).Nodup) {key : κ}
    {value : ν} : d.get? key = some value ↔ (key, value) ∈ d.entries := by
  obtain ⟨entries⟩ := d
  rw [get?]
  induction entries with
  | nil => simp [find?]
  | cons entry entries ih =>
    obtain ⟨k, v⟩ := entry
    rw [List.map_cons, List.nodup_cons] at hkeys
    rw [find?, List.mem_cons, Prod.mk.injEq]
    by_cases hk : k = key
    · subst hk
      have hnot : (k, value) ∉ entries := fun hmem =>
        hkeys.1 (List.mem_map.mpr ⟨(k, value), hmem, rfl⟩)
      simp [hnot, eq_comm]
    · simp only [hk, Ne.symm hk, if_false, false_and, false_or]
      exact ih hkeys.2

/-- Writing adds its key, unless it is there. -/
theorem keys_put (d : Dictionary κ ν) (key : κ) (value : ν) :
    (d.put key value).entries.map (·.1) =
      if key ∈ d.entries.map (·.1) then d.entries.map (·.1) else d.entries.map (·.1) ++ [key] := by
  obtain ⟨entries⟩ := d
  rw [put]
  induction entries with
  | nil => simp [write]
  | cons entry entries ih =>
    obtain ⟨k, v⟩ := entry
    by_cases hk : k = key
    · simp [write, hk]
    · simp only [write, hk, if_false, List.map_cons, List.mem_cons, Ne.symm hk, false_or] at ih ⊢
      rw [ih]
      split <;> rfl

theorem nodup_keys_put {d : Dictionary κ ν} (h : (d.entries.map (·.1)).Nodup) (key : κ)
    (value : ν) : ((d.put key value).entries.map (·.1)).Nodup := by
  rw [keys_put]
  split
  · exact h
  · next hkey =>
    refine List.nodup_append.mpr ⟨h, by simp, fun k hk other hother heq => ?_⟩
    rw [heq, List.mem_singleton.mp hother] at hk
    exact hkey hk

theorem mem_keys_put {d : Dictionary κ ν} {key k : κ} {value : ν}
    (h : k ∈ (d.put key value).entries.map (·.1)) : k = key ∨ k ∈ d.entries.map (·.1) := by
  rw [keys_put] at h
  split at h
  · exact .inr h
  · rw [List.mem_append, List.mem_singleton] at h
    exact h.symm

end Dictionary
end Stencil
