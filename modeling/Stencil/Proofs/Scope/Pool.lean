import Stencil.Scope.Pool

/-!
# Marks in a pool

A context that is held in a pool finds there a scope at each of its depths.
Marking depths changes the cells at these depths and no others, and no cell
loses its scope; a new scope below the context takes a new cell.
-/

namespace Stencil.Pool

/-- The numbers of a context stand for different cells of the pool, and its family is there. -/
structure Context.Held (c : Context) (p : Pool) : Prop where
  nodup : (c.root :: c.inner).Nodup
  cells : ∀ n ∈ c.root :: c.inner, n < p.cells.length
  family : c.family < p.families.length

/-- A cell keeps its scope, and it is marked in the end if it was or `marked` says so. -/
structure Cell.Becomes (before after : Cell) (marked : Prop) : Prop where
  scope : after.scope = before.scope
  style : after.style = .entries ↔ before.style = .entries ∨ marked

theorem Cell.Becomes.refl (cell : Cell) : cell.Becomes cell False :=
  ⟨rfl, by simp⟩

theorem Cell.Becomes.trans {a b c : Cell} {p q r : Prop} (hab : a.Becomes b p)
    (hbc : b.Becomes c q) (hr : r ↔ p ∨ q) : a.Becomes c r :=
  ⟨hbc.scope.trans hab.scope, by rw [hbc.style, hab.style, hr, or_assoc]⟩

theorem Cell.Becomes.eq {a b : Cell} {marked : Prop} (h : a.Becomes b marked) (hnot : ¬ marked) :
    b = a := by
  obtain ⟨scope, style⟩ := a
  obtain ⟨scope', style'⟩ := b
  obtain ⟨rfl, hstyle⟩ := h
  rw [or_iff_left hnot] at hstyle
  cases style <;> cases style' <;> simp_all

theorem Cell.Becomes.congr {a b : Cell} {p q : Prop} (h : a.Becomes b p) (hpq : q ↔ p) :
    a.Becomes b q :=
  ⟨h.scope, by rw [h.style, hpq]⟩

variable {p : Pool} {c : Context}

theorem Context.mem_of_cellAt? {n depth : Nat} (h : c.cellAt? depth = some n) :
    n ∈ c.root :: c.inner := by
  have hmem := List.mem_of_getElem? h
  simpa using hmem

theorem Context.cellAt?_depth_lt {n depth : Nat} (h : c.cellAt? depth = some n) :
    depth ≤ c.depth := by
  obtain ⟨hlt, -⟩ := List.getElem?_eq_some_iff.mp h
  simp only [List.length_cons, List.length_reverse] at hlt
  exact Nat.le_of_lt_succ hlt

theorem cellAt?_nextBelow (p : Pool) (c : Context) (depth : Nat) :
    (p.nextBelow c).cellAt? depth =
      if depth = c.depth + 1 then some p.cells.length else c.cellAt? depth := by
  have hlist : (p.nextBelow c).root :: (p.nextBelow c).inner.reverse =
      (c.root :: c.inner.reverse) ++ [p.cells.length] := by
    simp [nextBelow]
  rw [Context.cellAt?, hlist, List.getElem?_append, Context.cellAt?, Context.depth]
  simp only [List.length_cons, List.length_reverse]
  split
  · rw [if_neg (by omega)]
  · split
    · simp [*]
    · rw [List.getElem?_eq_none (by simp; omega), List.getElem?_eq_none (by simp; omega)]

/-- A cell that was there before is found from the new context where it is found from the old. -/
theorem cellAt?_nextBelow_of_lt {n depth : Nat} (hn : n < p.cells.length) :
    (p.nextBelow c).cellAt? depth = some n ↔ depth ≤ c.depth ∧ c.cellAt? depth = some n := by
  rw [cellAt?_nextBelow]
  split
  · constructor
    · intro h
      have := Option.some.inj h
      omega
    · intro h
      omega
  · exact ⟨fun h => ⟨Context.cellAt?_depth_lt h, h⟩, fun h => h.2⟩

/-- The new cell is found in the innermost place only. -/
theorem cellAt?_nextBelow_length (hc : c.Held p) {depth : Nat} :
    (p.nextBelow c).cellAt? depth = some p.cells.length ↔ depth = c.depth + 1 := by
  rw [cellAt?_nextBelow]
  split
  · simp [*]
  · refine iff_of_false ?_ ‹_›
    intro h
    exact absurd (hc.cells _ (Context.mem_of_cellAt? h)) (Nat.lt_irrefl _)

theorem Context.Held.nextBelow (hc : c.Held p) (scope : Scope) :
    (p.nextBelow c).Held (p.child c scope) where
  nodup := by
    have hne : c.root ≠ p.cells.length := by
      have := hc.cells c.root List.mem_cons_self
      omega
    have hnew : p.cells.length ∉ c.inner := by
      intro h
      exact absurd (hc.cells _ (List.mem_cons_of_mem _ h)) (Nat.lt_irrefl _)
    have hnodup := hc.nodup
    rw [List.nodup_cons] at hnodup
    simp only [Pool.nextBelow, List.nodup_cons, List.mem_cons, not_or]
    exact ⟨⟨hne, hnodup.1⟩, hnew, hnodup.2⟩
  cells := by
    intro n hn
    simp only [Pool.nextBelow, List.mem_cons] at hn
    simp only [child, List.length_append, List.length_singleton]
    rcases hn with rfl | rfl | hn
    · have := hc.cells c.root List.mem_cons_self
      omega
    · omega
    · have := hc.cells n (List.mem_cons_of_mem _ hn)
      omega
  family := hc.family

theorem Context.Held.exists_cell (hc : c.Held p) {n : Nat} (hn : n ∈ c.inner) :
    ∃ cell, p.cells[n]? = some cell := by
  have hlt := hc.cells n (List.mem_cons_of_mem _ hn)
  exact ⟨_, List.getElem?_eq_getElem hlt⟩

theorem scopes_eq_map (hc : c.Held p) :
    p.scopes c = c.inner.map fun n => ((p.cells[n]?).map Cell.scope).getD {} := by
  have hmap : ∀ numbers : List Nat, (∀ n ∈ numbers, ∃ cell, p.cells[n]? = some cell) →
      numbers.filterMap (fun n => (p.cells[n]?).map Cell.scope) =
        numbers.map fun n => ((p.cells[n]?).map Cell.scope).getD {} := by
    intro numbers h
    induction numbers with
    | nil => rfl
    | cons n numbers ih =>
      obtain ⟨cell, hcell⟩ := h n List.mem_cons_self
      have hrest := ih fun m hm => h m (List.mem_cons_of_mem _ hm)
      simp [hcell, hrest]
  exact hmap c.inner fun n hn => hc.exists_cell hn

theorem length_scopes (hc : c.Held p) : (p.scopes c).length = c.depth := by
  rw [scopes_eq_map hc, List.length_map, Context.depth]

/-- The scopes stay the same while every cell keeps its own. -/
theorem scopes_eq_of_cells {q : Pool} (hc : c.Held p) (hq : c.Held q)
    (h : ∀ (n : Nat) (cell : Cell), p.cells[n]? = some cell →
      ∃ cell', q.cells[n]? = some cell' ∧ Cell.scope cell' = cell.scope) :
    q.scopes c = p.scopes c := by
  rw [scopes_eq_map hc, scopes_eq_map hq]
  apply List.map_congr_left
  intro n hn
  obtain ⟨cell, hcell⟩ := hc.exists_cell hn
  obtain ⟨cell', hcell', hscope⟩ := h n cell hcell
  rw [hcell, hcell', Option.map_some, Option.map_some, hscope]

/-- A context is held as long as no cell and no family goes away. -/
theorem Context.Held.mono {q : Pool} (hc : c.Held p) (hcells : p.cells.length ≤ q.cells.length)
    (hfamilies : p.families.length ≤ q.families.length) : c.Held q where
  nodup := hc.nodup
  cells := fun n hn => Nat.lt_of_lt_of_le (hc.cells n hn) hcells
  family := Nat.lt_of_lt_of_le hc.family hfamilies

theorem Context.Held.of_cells {q : Pool} (hc : c.Held p)
    (hcells : p.cells.length ≤ q.cells.length)
    (hfamilies : q.families.length = p.families.length) : c.Held q :=
  hc.mono hcells (Nat.le_of_eq hfamilies.symm)

theorem Context.Held.child {d : Context} (hd : d.Held p) (c : Context) (scope : Scope) :
    d.Held (p.child c scope) :=
  hd.of_cells (by simp [Pool.child]) rfl

/-- A new context leaves the scopes of the others as they are. -/
theorem scopes_child_of_held {d : Context} (hd : d.Held p) (scope : Scope) :
    (p.child c scope).scopes d = p.scopes d := by
  apply scopes_eq_of_cells hd (hd.child c scope)
  intro n cell hcell
  refine ⟨cell, ?_, rfl⟩
  obtain ⟨hlt, -⟩ := List.getElem?_eq_some_iff.mp hcell
  rw [child, List.getElem?_append_left hlt, hcell]

theorem scopes_child (hc : c.Held p) (scope : Scope) :
    (p.child c scope).scopes (p.nextBelow c) = scope :: p.scopes c := by
  have hnew : (p.child c scope).cells[p.cells.length]? = some ⟨scope, .values⟩ := by
    simp [child]
  change (p.cells.length :: c.inner).filterMap _ = _
  rw [List.filterMap_cons, hnew]
  exact congrArg (scope :: ·) (scopes_child_of_held hc scope)

theorem cells_openBelow_of_lt {scope : Scope} {keyed : Bool} {n : Nat} {cell : Cell}
    (h : p.cells[n]? = some cell) : (p.openBelow c scope keyed).cells[n]? = some cell := by
  obtain ⟨hlt, -⟩ := List.getElem?_eq_some_iff.mp h
  have hchild : (p.child c scope).cells[n]? = some cell := by
    rw [child, List.getElem?_append_left hlt, h]
  cases keyed with
  | false => exact hchild
  | true =>
    have hne : p.cells.length ≠ n := by omega
    simp [openBelow, markCell, hchild, hne]

theorem cells_openBelow_length {scope : Scope} {keyed : Bool} :
    (p.openBelow c scope keyed).cells[p.cells.length]? =
      some ⟨scope, if keyed then .entries else .values⟩ := by
  cases keyed <;> simp [openBelow, markCell, child]

theorem Context.Held.openBelow (hc : c.Held p) (scope : Scope) (keyed : Bool) :
    (p.nextBelow c).Held (p.openBelow c scope keyed) := by
  apply (hc.nextBelow scope).of_cells
  · cases keyed <;> simp [Pool.openBelow, markCell]
  · cases keyed <;> rfl

theorem scopes_openBelow (hc : c.Held p) (scope : Scope) (keyed : Bool) :
    (p.openBelow c scope keyed).scopes (p.nextBelow c) = scope :: p.scopes c := by
  rw [← scopes_child hc scope]
  apply scopes_eq_of_cells (hc.nextBelow scope) (hc.openBelow scope keyed)
  intro n cell hcell
  cases keyed with
  | false => exact ⟨cell, hcell, rfl⟩
  | true =>
    simp only [openBelow, markCell, List.getElem?_modify, hcell, if_true]
    refine ⟨_, rfl, ?_⟩
    split <;> rfl

theorem cells_mark? (depth : Nat) {n : Nat} {cell : Cell} (h : p.cells[n]? = some cell) :
    ∃ cell', ((p.mark? c depth).getD p).cells[n]? = some cell' ∧
      cell.Becomes cell' (c.cellAt? depth = some n) := by
  cases hnumber : c.cellAt? depth with
  | none =>
    refine ⟨cell, by simp [mark?, hnumber, h], (Cell.Becomes.refl cell).congr (by simp)⟩
  | some m =>
    simp only [mark?, hnumber, Option.map_some, Option.getD_some, markCell, List.getElem?_modify, h]
    by_cases hm : m = n
    · exact ⟨_, rfl, by simp [hm], by simp [hm]⟩
    · exact ⟨_, rfl, by simp [hm], by simp [hm]⟩

theorem cells_markAll (marks : List Nat) {n : Nat} {cell : Cell} (h : p.cells[n]? = some cell) :
    ∃ cell', (p.markAll c marks).cells[n]? = some cell' ∧
      cell.Becomes cell' (∃ depth ∈ marks, c.cellAt? depth = some n) := by
  induction marks generalizing p cell with
  | nil => exact ⟨cell, h, (Cell.Becomes.refl cell).congr (by simp)⟩
  | cons depth marks ih =>
    obtain ⟨first, hfirst, hbecomes⟩ := cells_mark? (c := c) depth h
    obtain ⟨last, hlast, hthen⟩ := ih hfirst
    exact ⟨last, hlast, hbecomes.trans hthen (by simp)⟩

theorem families_markAll (p : Pool) (c : Context) (marks : List Nat) :
    (p.markAll c marks).families = p.families := by
  induction marks generalizing p with
  | nil => rfl
  | cons depth marks ih =>
    rw [markAll, List.foldl_cons]
    refine (ih _).trans ?_
    cases hnumber : c.cellAt? depth <;> simp [mark?, hnumber, markCell]

theorem contexts_markAll (p : Pool) (c : Context) (marks : List Nat) :
    (p.markAll c marks).contexts = p.contexts := by
  induction marks generalizing p with
  | nil => rfl
  | cons depth marks ih =>
    rw [markAll, List.foldl_cons]
    refine (ih _).trans ?_
    cases hnumber : c.cellAt? depth <;> simp [mark?, hnumber, markCell]

theorem length_cells_markAll (p : Pool) (c : Context) (marks : List Nat) :
    (p.markAll c marks).cells.length = p.cells.length := by
  induction marks generalizing p with
  | nil => rfl
  | cons depth marks ih =>
    rw [markAll, List.foldl_cons]
    refine (ih _).trans ?_
    cases hnumber : c.cellAt? depth <;> simp [mark?, hnumber, markCell]

theorem markAll_append (p : Pool) (c : Context) (marks more : List Nat) :
    p.markAll c (marks ++ more) = (p.markAll c marks).markAll c more :=
  List.foldl_append

theorem markAll_updateFamily (p : Pool) (c : Context) (marks : List Nat) (f : Family → Family) :
    (p.updateFamily c f).markAll c marks = (p.markAll c marks).updateFamily c f := by
  induction marks generalizing p with
  | nil => rfl
  | cons depth marks ih =>
    have hmark : ((p.updateFamily c f).mark? c depth).getD (p.updateFamily c f) =
        ((p.mark? c depth).getD p).updateFamily c f := by
      cases hnumber : c.cellAt? depth <;> simp [mark?, hnumber, markCell, updateFamily]
    rw [markAll, List.foldl_cons, hmark]
    exact ih _

theorem updateFamily_updateFamily (p : Pool) (c : Context) (f g : Family → Family) :
    (p.updateFamily c f).updateFamily c g = p.updateFamily c (g ∘ f) := by
  simp [updateFamily, List.modify_modify_eq]

theorem updateFamily_id (p : Pool) (c : Context) : p.updateFamily c id = p := by
  simp [updateFamily, List.modify_id]

theorem scopes_markAll (p : Pool) (c d : Context) (marks : List Nat) :
    (p.markAll c marks).scopes d = p.scopes d := by
  induction marks generalizing p with
  | nil => rfl
  | cons depth marks ih =>
    refine (ih _).trans ?_
    have hcell : ∀ n : Nat, (((p.mark? c depth).getD p).cells[n]?).map Cell.scope =
        (p.cells[n]?).map Cell.scope := by
      intro n
      cases hnumber : c.cellAt? depth with
      | none => simp [mark?, hnumber]
      | some m =>
        cases hold : p.cells[n]? with
        | none => simp [mark?, hnumber, markCell, List.getElem?_modify, hold]
        | some cell =>
          by_cases hm : m = n <;> simp [mark?, hnumber, markCell, hold, hm]
    unfold scopes
    simp only [hcell]

end Stencil.Pool
