import Stencil.Scope

/-!
# Merged scopes

Scopes are merged from the outermost inwards, and each writes over what was
there. What comes out can be told scope by scope: the names are those of all
scopes, and a dotted name is replaced by what the innermost scope writes for it
that writes anything. So the scopes may as well be searched from the inside
outwards.
-/

namespace Stencil

namespace Scope

/-- What a scope writes for a dotted name. Of several entries under this name the last counts, as
if they were written one after the other. -/
def replacement? (s : Scope) (dotted : String) : Option String :=
  s.replacements.bind fun d => Dictionary.find? dotted d.entries.reverse

end Scope

namespace Merged

theorem mem_foldl_names {x : String} (names seen : List String) :
    x ∈ names.foldl (fun seen y => if y ∈ seen then seen else seen ++ [y]) seen ↔
      x ∈ seen ∨ x ∈ names := by
  induction names generalizing seen with
  | nil => simp
  | cons y names ih =>
    rw [List.foldl_cons, ih]
    split
    · next hy =>
      constructor
      · rintro (h | h)
        · exact .inl h
        · exact .inr (List.mem_cons_of_mem y h)
      · rintro (h | h)
        · exact .inl h
        · rcases List.mem_cons.mp h with rfl | h
          · exact .inl hy
          · exact .inr h
    · simp [or_assoc]

theorem nodup_foldl_names (names : List String) {seen : List String} (h : seen.Nodup) :
    (names.foldl (fun seen y => if y ∈ seen then seen else seen ++ [y]) seen).Nodup := by
  induction names generalizing seen with
  | nil => exact h
  | cons y names ih =>
    rw [List.foldl_cons]
    apply ih
    split
    · exact h
    · next hy =>
      refine List.nodup_append.mpr ⟨h, by simp, fun x hx other hother heq => ?_⟩
      rw [heq, List.mem_singleton.mp hother] at hx
      exact hy hx

theorem mem_add_names {x : String} (m : Merged) (s : Scope) :
    x ∈ (m.add s).names ↔ x ∈ m.names ∨ x ∈ s.names :=
  mem_foldl_names s.names m.names

theorem get?_add (m : Merged) (s : Scope) (dotted : String) :
    (m.add s).replacements.get? dotted =
      (s.replacement? dotted).or (m.replacements.get? dotted) := by
  rw [add, Scope.replacement?]
  cases s.replacements with
  | none => rfl
  | some more => exact Dictionary.get?_putAll m.replacements more dotted

end Merged

namespace Scopes

theorem merge_cons (scope : Scope) (outer : List Scope) :
    merge (scope :: outer) = (merge outer).add scope := by
  simp [merge]

theorem mem_merge_names {x : String} (scopes : List Scope) :
    x ∈ (merge scopes).names ↔ ∃ scope ∈ scopes, x ∈ scope.names := by
  induction scopes with
  | nil => simp [merge]
  | cons scope outer ih =>
    rw [merge_cons, Merged.mem_add_names, ih]
    simp [or_comm]

theorem nodup_merge_names (scopes : List Scope) : (merge scopes).names.Nodup := by
  cases scopes with
  | nil => exact List.nodup_nil
  | cons scope outer =>
    rw [merge_cons]
    exact Merged.nodup_foldl_names scope.names (nodup_merge_names outer)

theorem merge_replacements {scopes : List Scope}
    (h : ∀ scope ∈ scopes, scope.replacements = none) :
    (merge scopes).replacements = .empty := by
  induction scopes with
  | nil => rfl
  | cons scope outer ih =>
    rw [merge_cons, Merged.add, h scope List.mem_cons_self]
    exact ih fun other hother => h other (List.mem_cons_of_mem scope hother)

/-- A replacement is found by a search from the innermost scope outwards. -/
theorem get?_merge (scopes : List Scope) (dotted : String) :
    (merge scopes).replacements.get? dotted = scopes.findSome? (·.replacement? dotted) := by
  induction scopes with
  | nil => rfl
  | cons scope outer ih =>
    rw [merge_cons, Merged.get?_add, ih, List.findSome?_cons]
    cases scope.replacement? dotted <;> rfl

end Scopes
end Stencil
