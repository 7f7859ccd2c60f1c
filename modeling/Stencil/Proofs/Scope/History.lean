import Stencil.Proofs.Scope.Sharing

/-!
# Histories of a pool

Whatever is done in a pool, every context finds a scope at each of its depths,
so that references can be looked up scope by scope. Scopes keep what they were
opened with, marks stay, and tallies grow. A mark or a note is seen by the
contexts that are derived from a certain one, and by nobody else.
-/

namespace Stencil.Pool

open Handlebars (Path)

/-- A tally to which something may have been added. -/
structure Family.Grows (before after : Family) : Prop where
  conditionals : before.conditionals ≤ after.conditionals
  diagnostics : before.diagnostics <+: after.diagnostics

theorem Family.Grows.refl (f : Family) : f.Grows f :=
  ⟨Nat.le_refl _, List.prefix_refl _⟩

theorem Family.Grows.trans {f g h : Family} (hfg : f.Grows g) (hgh : g.Grows h) : f.Grows h :=
  ⟨Nat.le_trans hfg.conditionals hgh.conditionals, hfg.diagnostics.trans hgh.diagnostics⟩

/-- The context that an operation is about, if it makes no new one. -/
def Operation.touched? : Operation → Option Nat
  | resolve n _ => some n
  | mark n _ => some n
  | record n _ => some n
  | count n => some n
  | _ => none

/-- What an operation can do: bear a context beside all that was there, or mark one scope of a
context and add to its tally. -/
inductive Performed (p : Pool) : Operation → Pool → Prop
  | birth {operation : Operation} {b : Birth} {e : Context} {r : Pool}
      (hbirth : operation.birth? = some b) (hbears : Bears p b e r)
      (hcells : p.cells <+: r.cells) (hfamilies : p.families <+: r.families) :
      Performed p operation r
  | touch {operation : Operation} {k : Nat} {c : Context} (hbirth : operation.birth? = none)
      (htouched : operation.touched? = some k) (hc : p.contexts[k]? = some c)
      (mark : Option Nat) (f : Family → Family) (hf : ∀ tally, Family.Grows tally (f tally)) :
      Performed p operation ((p.markAll c mark.toList).updateFamily c f)

section
variable {bs : List Birth} {p : Pool}

theorem resolve_snd (p : Pool) (c : Context) (path : Path) :
    (p.resolve c path).2 = p.markAll c (Scopes.resolve (p.scopes c) path).mark.toList := by
  rw [resolve]
  cases (Scopes.resolve (p.scopes c) path).mark <;> rfl

theorem performed_of_perform? (ht : Traced bs p) {operation : Operation} {r : Pool}
    (h : p.perform? operation = some r) : Performed p operation r := by
  cases operation with
  | newRoot =>
    cases h
    exact .birth rfl (bears_newRoot p) (List.prefix_append _ _) (List.prefix_append _ _)
  | child n scope =>
    obtain ⟨c, hc, rfl⟩ := Option.map_eq_some_iff.mp h
    exact .birth rfl (bears_child hc (ht.heldAt hc) scope) (List.prefix_append _ _)
      (List.prefix_refl _)
  | copy n =>
    obtain ⟨c, hc, rfl⟩ := Option.map_eq_some_iff.mp h
    exact .birth rfl (bears_copy hc (ht.heldAt hc)) (List.prefix_refl _) (List.prefix_refl _)
  | resolve n path =>
    obtain ⟨c, hc, rfl⟩ := Option.map_eq_some_iff.mp h
    rw [resolve_snd, ← updateFamily_id (p.markAll _ _) c]
    exact .touch rfl rfl hc _ id fun tally => .refl tally
  | mark n depth =>
    obtain ⟨c, hc, hmark⟩ := Option.bind_eq_some_iff.mp h
    have hall : r = p.markAll c (some depth).toList := by simp [markAll, hmark]
    rw [hall, ← updateFamily_id (p.markAll _ _) c]
    exact .touch rfl rfl hc (some depth) id fun tally => .refl tally
  | record n d =>
    obtain ⟨c, hc, rfl⟩ := Option.map_eq_some_iff.mp h
    exact .touch rfl rfl hc none _ fun tally => ⟨Nat.le_refl _, List.prefix_append _ _⟩
  | count n =>
    obtain ⟨c, hc, rfl⟩ := Option.map_eq_some_iff.mp h
    exact .touch rfl rfl hc none _ fun tally => ⟨Nat.le_succ _, List.prefix_refl _⟩

end

def style? (p : Pool) (c : Context) (depth : Nat) : Option Style :=
  (p.cell? c depth).map Cell.style

/-- The context sees in `q` what it saw in `p`, up to marks and additions to the tally. -/
structure Later (p q : Pool) (c : Context) : Prop where
  scopes : ∀ depth, (q.cell? c depth).map Cell.scope = (p.cell? c depth).map Cell.scope
  styles : ∀ depth, p.style? c depth = some .entries → q.style? c depth = some .entries
  shared : (p.shared c).Grows (q.shared c)

/-- The context sees in `q` exactly what it saw in `p`. -/
structure Same (p q : Pool) (c : Context) : Prop where
  cells : ∀ depth, q.cell? c depth = p.cell? c depth
  shared : q.shared c = p.shared c

namespace Later

variable {p q r : Pool} {c : Context}

theorem refl (p : Pool) (c : Context) : Later p p c :=
  ⟨fun _ => rfl, fun _ h => h, .refl _⟩

theorem trans (hpq : Later p q c) (hqr : Later q r c) : Later p r c where
  scopes := fun depth => (hqr.scopes depth).trans (hpq.scopes depth)
  styles := fun depth h => hqr.styles depth (hpq.styles depth h)
  shared := hpq.shared.trans hqr.shared

end Later

section
variable {p q : Pool} {c e : Context}

theorem Same.later (h : Same p q c) : Later p q c where
  scopes := fun depth => by rw [h.cells depth]
  styles := fun depth => by rw [style?, style?, h.cells depth]; exact id
  shared := by rw [h.shared]; exact .refl _

theorem Same.style? (h : Same p q c) (depth : Nat) : q.style? c depth = p.style? c depth := by
  rw [Pool.style?, Pool.style?, h.cells depth]

/-- New cells and families at the end are not seen. -/
theorem same_of_extended (hc : c.Held p) (hcells : p.cells <+: q.cells)
    (hfamilies : p.families <+: q.families) : Same p q c where
  cells := by
    intro depth
    obtain ⟨new, hnew⟩ := hcells
    cases hcell : c.cellAt? depth with
    | none => simp [cell?, hcell]
    | some n =>
      have hlt := hc.cells n (Context.mem_of_cellAt? hcell)
      simp only [cell?, hcell, Option.bind_some, ← hnew, List.getElem?_append_left hlt]
  shared := by
    obtain ⟨new, hnew⟩ := hfamilies
    rw [shared, shared, ← hnew, List.getElem?_append_left hc.family]

/-- A mark is seen where the marked scope is held. -/
theorem cell?_touch (marks : List Nat) (f : Family → Family) {depth : Nat} {cell : Cell}
    (h : p.cell? e depth = some cell) :
    ∃ cell', ((p.markAll c marks).updateFamily c f).cell? e depth = some cell' ∧
      cell.Becomes cell' (∃ d ∈ marks, c.cellAt? d = e.cellAt? depth) := by
  obtain ⟨n, hn, hcell⟩ := Option.bind_eq_some_iff.mp h
  obtain ⟨cell', hcell', hbecomes⟩ := cells_markAll (c := c) marks hcell
  refine ⟨cell', ?_, hn ▸ hbecomes⟩
  rw [cell?, hn]
  exact hcell'

/-- An addition to the tally is seen in the same family. -/
theorem shared_touch (marks : List Nat) (f : Family → Family) (he : e.Held p) :
    ((p.markAll c marks).updateFamily c f).shared e =
      if c.family = e.family then f (p.shared e) else p.shared e := by
  have hfamily := List.getElem?_eq_getElem he.family
  simp only [shared, updateFamily, families_markAll, List.getElem?_modify, hfamily,
    Option.getD_some]
  split <;> rfl

theorem Context.Held.isSome_cell?_iff (hc : c.Held p) (depth : Nat) :
    (p.cell? c depth).isSome = true ↔ depth ≤ c.depth := by
  constructor
  · intro h
    obtain ⟨cell, hcell⟩ := Option.isSome_iff_exists.mp h
    obtain ⟨n, hn, -⟩ := Option.bind_eq_some_iff.mp hcell
    exact Context.cellAt?_depth_lt hn
  · intro h
    have hlt : depth < (c.root :: c.inner.reverse).length := by
      simp only [List.length_cons, List.length_reverse]
      exact Nat.lt_succ_of_le h
    have hn : c.cellAt? depth = some _ := List.getElem?_eq_getElem hlt
    have hcell := hc.cells _ (Context.mem_of_cellAt? hn)
    rw [cell?, hn, Option.bind_some, List.getElem?_eq_getElem hcell]
    rfl

theorem cell?_touch_eq_none (marks : List Nat) (f : Family → Family) (he : e.Held p) {depth : Nat}
    (h : p.cell? e depth = none) :
    ((p.markAll c marks).updateFamily c f).cell? e depth = none := by
  have hdepth : ¬ depth ≤ e.depth := by
    rw [← he.isSome_cell?_iff, h]
    simp
  cases hcell : e.cellAt? depth with
  | none => simp [cell?, hcell]
  | some n => exact absurd (Context.cellAt?_depth_lt hcell) hdepth

theorem later_touch (marks : List Nat) {f : Family → Family}
    (hf : ∀ tally, Family.Grows tally (f tally)) (he : e.Held p) :
    Later p ((p.markAll c marks).updateFamily c f) e := by
  refine ⟨fun depth => ?_, fun depth h => ?_, ?_⟩
  · cases hcell : p.cell? e depth with
    | none => rw [cell?_touch_eq_none marks f he hcell]
    | some cell =>
      obtain ⟨cell', hcell', hbecomes⟩ := cell?_touch (c := c) marks f hcell
      rw [hcell', Option.map_some, Option.map_some, hbecomes.scope]
  · obtain ⟨cell, hcell, hstyle⟩ := Option.map_eq_some_iff.mp h
    obtain ⟨cell', hcell', hbecomes⟩ := cell?_touch (c := c) marks f hcell
    rw [style?, hcell', Option.map_some, hbecomes.style.mpr (.inl hstyle)]
  · rw [shared_touch marks f he]
    split
    · exact hf _
    · exact .refl _

end

/-- The text of a reference, looked up scope by scope. There is none if a scope is missing, or the
first member where it is asked for. -/
def lookUp? (p : Pool) (c : Context) (path : Path) : Option String :=
  if c.depth < path.depth then some unresolved
  else if c.depth - path.depth = 0 then some path.joined
  else do
    let cell ← p.cell? c (c.depth - path.depth)
    if path.isCurrent then some (cell.scope.value?.getD unresolved)
    else if path.isKey then some (cell.scope.key?.getD "key")
    else
      let first ← path.parts[0]?
      let seen := p.collect c (c.depth - path.depth)
      if first ∈ seen.names then some ((seen.replacements.get? path.joined).getD path.joined)
      else some ((cell.scope.value?.map (· ++ "." ++ path.joined)).getD unresolved)

section
variable {p : Pool} {c : Context}

/-- The scope at a depth inside the root, and the scopes around it. -/
theorem exists_drop_scopes (hc : c.Held p) {depth : Nat} (hlt : depth < c.depth) :
    ∃ cell outer, p.cell? c (c.depth - depth) = some cell ∧
      (p.scopes c).drop depth = cell.scope :: outer := by
  obtain ⟨cell, hcell⟩ := Option.isSome_iff_exists.mp
    ((hc.isSome_cell?_iff (c.depth - depth)).mpr (Nat.sub_le _ _))
  have hlength : depth < (p.scopes c).length := by
    rw [length_scopes hc]
    exact hlt
  refine ⟨cell, (p.scopes c).drop (depth + 1), hcell, ?_⟩
  rw [List.drop_eq_getElem_cons hlength]
  congr 1
  -- The cells are counted from the root, the scopes from the innermost one.
  have hnumber : c.cellAt? (c.depth - depth) = c.inner[depth]? := by
    obtain ⟨k, hk⟩ : ∃ k, c.depth - depth = k + 1 := ⟨c.depth - depth - 1, by omega⟩
    have hk' : k < c.inner.length := by
      rw [Context.depth] at hk
      omega
    rw [Context.cellAt?, hk, List.getElem?_cons_succ, List.getElem?_reverse hk']
    congr 1
    rw [Context.depth] at hk hlt
    omega
  obtain ⟨n, hn, hcell⟩ := Option.bind_eq_some_iff.mp hcell
  rw [hnumber] at hn
  obtain ⟨_, hget⟩ := List.getElem?_eq_some_iff.mp hn
  simp only [scopes_eq_map hc, List.getElem_map, hget, hcell, Option.map_some, Option.getD_some]

theorem lookUp?_eq_resolve (hc : c.Held p) (path : Path) :
    p.lookUp? c path = some (p.resolve c path).1 := by
  have hlength := length_scopes hc
  rw [lookUp?, resolve, Scopes.resolve, hlength]
  rcases Nat.lt_trichotomy path.depth c.depth with hlt | heq | hgt
  · obtain ⟨cell, outer, hcell, hdrop⟩ := exists_drop_scopes hc hlt
    have hcollect : p.collect c (c.depth - path.depth) = Scopes.merge (cell.scope :: outer) := by
      have hsub : c.depth - (c.depth - path.depth) = path.depth := by omega
      rw [collect, Scopes.collect, hlength, hsub, hdrop]
    rw [if_neg (by omega), if_neg (by omega), if_neg (by omega), hcell, hdrop, hcollect]
    cases hparts : path.parts with
    | nil => simp [Path.isCurrent, hparts]
    | cons first rest =>
      by_cases hkey : path.isKey = true
      · cases hname : cell.scope.key? <;> simp [Path.isCurrent, hparts, hkey, hname]
      · by_cases hmem : first ∈ (Scopes.merge (cell.scope :: outer)).names
        · simp [Path.isCurrent, hparts, hkey, hmem, Scopes.member]
        · cases hvalue : cell.scope.value? <;>
            simp [Path.isCurrent, hparts, hkey, hmem, Scopes.member, hvalue]
  · have hdrop : (p.scopes c).drop path.depth = [] := List.drop_eq_nil_of_le (by omega)
    rw [if_neg (by omega), if_pos (by omega), if_neg (by omega), hdrop]
  · rw [if_pos hgt, if_pos hgt]

end

section
variable {bs : List Birth} {history : List Operation} {p q r : Pool} {operation : Operation}

theorem births_append (history more : List Operation) :
    births (history ++ more) = births history ++ births more :=
  List.filterMap_append

theorem Traced.perform? (ht : Traced (births history) p) (h : p.perform? operation = some r) :
    Traced (births (history ++ [operation])) r := by
  rw [births_append]
  cases performed_of_perform? ht h with
  | birth hbirth hbears =>
    simp only [births, List.filterMap_cons, hbirth]
    exact ht.bears hbears
  | @touch k c hbirth htouched hc mark f hf =>
    simp only [births, List.filterMap_cons, hbirth, List.filterMap_nil, List.append_nil]
    exact ht.of_same (contexts_markAll p c _) (length_cells_markAll p c _)
      (by rw [updateFamily, families_markAll, List.length_modify])

theorem Traced.run? {more : List Operation} (ht : Traced (births history) p)
    (h : p.run? more = some q) : Traced (births (history ++ more)) q := by
  induction more generalizing history p with
  | nil =>
    cases h
    rwa [List.append_nil]
  | cons operation more ih =>
    obtain ⟨r, hr, hrest⟩ := Option.bind_eq_some_iff.mp h
    have hthen := ih (ht.perform? hr) hrest
    rwa [List.append_assoc] at hthen

/-- Contexts keep their numbers, and see the same apart from marks and additions. -/
theorem Traced.later_perform? (ht : Traced bs p) (h : p.perform? operation = some r) {n : Nat}
    {c : Context} (hc : p.contexts[n]? = some c) : r.contexts[n]? = some c ∧ Later p r c := by
  have hheld := ht.heldAt hc
  cases performed_of_perform? ht h with
  | birth hbirth hbears hcells hfamilies =>
    exact ⟨hbears.context_of_lt hc, (same_of_extended hheld hcells hfamilies).later⟩
  | @touch k d hbirth htouched hd mark f hf =>
    exact ⟨by rw [updateFamily, contexts_markAll, hc], later_touch _ hf hheld⟩

theorem Traced.later_run? {more : List Operation} (ht : Traced (births history) p)
    (h : p.run? more = some q) {n : Nat} {c : Context} (hc : p.contexts[n]? = some c) :
    q.contexts[n]? = some c ∧ Later p q c := by
  induction more generalizing history p with
  | nil =>
    cases h
    exact ⟨hc, .refl _ c⟩
  | cons operation more ih =>
    obtain ⟨r, hr, hrest⟩ := Option.bind_eq_some_iff.mp h
    obtain ⟨hnext, hlater⟩ := ht.later_perform? hr hc
    obtain ⟨hlast, hthen⟩ := ih (ht.perform? hr) hrest hnext
    exact ⟨hlast, hlater.trans hthen⟩

end

def Inherits (p r : Pool) (e : Context) : Birth → Prop
  | .root => e.depth = 0 ∧ r.cell? e 0 = some ⟨{}, .values⟩ ∧ r.shared e = {}
  | .child k scope => ∃ c, p.contexts[k]? = some c ∧ e.depth = c.depth + 1 ∧
      (∀ depth ≤ c.depth, r.cell? e depth = p.cell? c depth) ∧
      r.cell? e e.depth = some ⟨scope, .values⟩ ∧ r.shared e = p.shared c
  | .copy k => ∃ c, p.contexts[k]? = some c ∧ e.depth = c.depth ∧
      (∀ depth, r.cell? e depth = p.cell? c depth) ∧ r.shared e = p.shared c

/-- What the context sees that was asked to mark a scope or to note something. -/
def Obeys (p r : Pool) : Operation → Prop
  | .mark k depth => ∃ c, p.contexts[k]? = some c ∧ r.style? c depth = some .entries
  | .record k d => ∃ c, p.contexts[k]? = some c ∧ r.shared c =
      { p.shared c with diagnostics := (p.shared c).diagnostics ++ [d] }
  | .count k => ∃ c, p.contexts[k]? = some c ∧ r.shared c =
      { p.shared c with conditionals := (p.shared c).conditionals + 1 }
  | _ => True

/-- What one operation changes, and who sees it. -/
structure Effect (bs : List Birth) (p : Pool) (operation : Operation) (r : Pool) : Prop where
  obeyed : Obeys p r operation
  /-- A new context sees what it inherits, and the others see no difference. -/
  born : ∀ b, operation.birth? = some b →
    (∃ e, r.contexts = p.contexts ++ [e] ∧ Inherits p r e b) ∧ ∀ c ∈ p.contexts, Same p r c
  /-- A style that changes is that of a scope which some context opened, and it changes for the
  contexts derived from this one. -/
  marked : ∀ (j : Nat) (e : Context) (depth : Nat), p.contexts[j]? = some e →
    r.style? e depth ≠ p.style? e depth →
    ∃ i c n, Opener bs p i c n ∧
      ∀ (j' : Nat) (e' : Context) (depth' : Nat), p.contexts[j']? = some e' →
        (r.style? e' depth' ≠ p.style? e' depth' ↔ Derives bs i j' ∧ depth' = c.depth)
  /-- A tally that changes is that of a root, and it changes for the contexts derived from this
  one. -/
  tallied : ∀ (j : Nat) (e : Context), p.contexts[j]? = some e → r.shared e ≠ p.shared e →
    ∃ i c, Founder bs p i c ∧ ∀ (j' : Nat) (e' : Context), p.contexts[j']? = some e' →
      (r.shared e' ≠ p.shared e' ↔ Derives bs i j')
  /-- What is done to a context is not seen by those derived from another root. -/
  apart : ∀ i c, Founder bs p i c → (∀ k, operation.touched? = some k → ¬ Derives bs i k) →
    ∀ (j : Nat) (e : Context), p.contexts[j]? = some e → Derives bs i j → Same p r e

section
variable {bs : List Birth} {p r : Pool} {c e : Context} {operation : Operation}

theorem inherits_newRoot (p : Pool) :
    Inherits p p.newRoot ⟨p.cells.length, [], p.families.length⟩ .root := by
  refine ⟨rfl, ?_, ?_⟩
  · simp [cell?, Context.cellAt?, newRoot]
  · simp [shared, newRoot]

theorem inherits_child {k : Nat} (hk : p.contexts[k]? = some c) (hc : c.Held p) (scope : Scope) :
    Inherits p (p.child c scope) (p.nextBelow c) (.child k scope) := by
  have hsame : Same p (p.child c scope) c :=
    same_of_extended hc (List.prefix_append _ _) (List.prefix_refl _)
  refine ⟨c, hk, rfl, ?_, ?_, rfl⟩
  · intro depth hdepth
    rw [← hsame.cells depth, cell?, cellAt?_nextBelow, if_neg (by omega), cell?]
  · have hnumber := (cellAt?_nextBelow_length hc).mpr (rfl : (p.nextBelow c).depth = c.depth + 1)
    rw [cell?, hnumber]
    simp [child]

theorem Traced.born (ht : Traced bs p) (h : p.perform? operation = some r) {b : Birth}
    (hb : operation.birth? = some b) :
    (∃ e, r.contexts = p.contexts ++ [e] ∧ Inherits p r e b) ∧ ∀ c ∈ p.contexts, Same p r c := by
  constructor
  · cases operation with
    | newRoot =>
      cases h
      cases hb
      exact ⟨_, rfl, inherits_newRoot p⟩
    | child n scope =>
      obtain ⟨c, hc, rfl⟩ := Option.map_eq_some_iff.mp h
      cases hb
      exact ⟨_, rfl, inherits_child hc (ht.heldAt hc) scope⟩
    | copy n =>
      obtain ⟨c, hc, rfl⟩ := Option.map_eq_some_iff.mp h
      cases hb
      exact ⟨c, rfl, c, hc, rfl, fun _ => rfl, rfl⟩
    | resolve n path => cases hb
    | mark n depth => cases hb
    | record n d => cases hb
    | count n => cases hb
  · intro c hc
    cases performed_of_perform? ht h with
    | birth hbirth hbears hcells hfamilies =>
      exact same_of_extended (ht.held c hc) hcells hfamilies
    | touch hbirth =>
      rw [hbirth] at hb
      cases hb

/-- A mark changes a style where the scope is held and was not marked. -/
theorem style?_touch_ne_iff (marks : List Nat) (f : Family → Family) (he : e.Held p)
    {depth : Nat} :
    ((p.markAll c marks).updateFamily c f).style? e depth ≠ p.style? e depth ↔
      p.style? e depth = some .values ∧ ∃ d ∈ marks, c.cellAt? d = e.cellAt? depth := by
  cases hcell : p.cell? e depth with
  | none =>
    have hnone := cell?_touch_eq_none (c := c) marks f he hcell
    simp [style?, hcell, hnone]
  | some cell =>
    obtain ⟨cell', hcell', hbecomes⟩ := cell?_touch (c := c) marks f hcell
    simp only [style?, hcell, hcell', Option.map_some, ne_eq, Option.some.injEq]
    by_cases hmarked : ∃ d ∈ marks, c.cellAt? d = e.cellAt? depth
    · rw [and_iff_left hmarked, hbecomes.style.mpr (.inr hmarked)]
      cases cell.style <;> simp
    · rw [hbecomes.eq hmarked]
      simp [hmarked]

theorem Traced.marked (ht : Traced bs p) (h : p.perform? operation = some r) {j depth : Nat}
    (he : p.contexts[j]? = some e) (hne : r.style? e depth ≠ p.style? e depth) :
    ∃ i c n, Opener bs p i c n ∧
      ∀ (j' : Nat) (e' : Context) (depth' : Nat), p.contexts[j']? = some e' →
        (r.style? e' depth' ≠ p.style? e' depth' ↔ Derives bs i j' ∧ depth' = c.depth) := by
  cases performed_of_perform? ht h with
  | birth hbirth hbears hcells hfamilies =>
    exact absurd ((same_of_extended (ht.heldAt he) hcells hfamilies).style? depth) hne
  | @touch k c hbirth htouched hc mark f hf =>
    obtain ⟨hvalues, d, hd, hcell⟩ := (style?_touch_ne_iff _ f (ht.heldAt he)).mp hne
    obtain ⟨cell, hseen, -⟩ := Option.map_eq_some_iff.mp hvalues
    obtain ⟨n, hn, -⟩ := Option.bind_eq_some_iff.mp hseen
    obtain ⟨i, opener, hopener⟩ := ht.exists_opener n
      ((ht.heldAt he).cells n (Context.mem_of_cellAt? hn))
    refine ⟨i, opener, n, hopener, fun j' e' depth' he' => ?_⟩
    rw [style?_touch_ne_iff _ f (ht.heldAt he'), ← ht.cellAt?_iff hopener he' depth']
    constructor
    · rintro ⟨-, d', hd', hcell'⟩
      -- An operation marks one scope at most.
      have hsame : d' = d := by
        cases mark with
        | none => cases hd
        | some m => simp_all
      rw [← hcell', hsame, hcell, hn]
    · intro hnumber
      refine ⟨?_, d, hd, by rw [hcell, hn, hnumber]⟩
      rw [← hvalues, style?, style?, cell?, cell?, hnumber, hn]

theorem Traced.tallied (ht : Traced bs p) (h : p.perform? operation = some r) {j : Nat}
    (he : p.contexts[j]? = some e) (hne : r.shared e ≠ p.shared e) :
    ∃ i c, Founder bs p i c ∧ ∀ (j' : Nat) (e' : Context), p.contexts[j']? = some e' →
      (r.shared e' ≠ p.shared e' ↔ Derives bs i j') := by
  cases performed_of_perform? ht h with
  | birth hbirth hbears hcells hfamilies =>
    exact absurd (same_of_extended (ht.heldAt he) hcells hfamilies).shared hne
  | @touch k c hbirth htouched hc mark f hf =>
    obtain ⟨i, founder, hfounder, hfamily⟩ := ht.exists_founder c.family (ht.heldAt hc).family
    refine ⟨i, founder, hfounder, fun j' e' he' => ?_⟩
    rw [shared_touch _ f (ht.heldAt he)] at hne
    rw [shared_touch _ f (ht.heldAt he'), ← ht.family_eq_iff hfounder he', hfamily]
    split at hne
    · next hsame =>
      constructor
      · intro hne'
        split at hne'
        · next hsame' => exact hsame'.symm
        · exact absurd rfl hne'
      · intro hsame'
        have hshared : p.shared e' = p.shared e := by rw [shared, shared, hsame', hsame]
        rw [if_pos hsame'.symm, hshared]
        exact hne
    · exact absurd rfl hne

theorem Traced.apart (ht : Traced bs p) (h : p.perform? operation = some r) {i j : Nat}
    (hfounder : Founder bs p i c)
    (hother : ∀ k, operation.touched? = some k → ¬ Derives bs i k)
    (he : p.contexts[j]? = some e) (hderives : Derives bs i j) : Same p r e := by
  have hheld := ht.heldAt he
  cases performed_of_perform? ht h with
  | birth hbirth hbears hcells hfamilies => exact same_of_extended hheld hcells hfamilies
  | @touch k d hbirth htouched hd mark f hf =>
    have hfamily : d.family ≠ e.family := by
      intro hsame
      rw [← ht.family_eq_iff hfounder he, ← hsame, ht.family_eq_iff hfounder hd] at hderives
      exact hother k htouched hderives
    refine ⟨fun depth => ?_, by rw [shared_touch _ f hheld, if_neg hfamily]⟩
    cases hcell : p.cell? e depth with
    | none => exact cell?_touch_eq_none _ f hheld hcell
    | some cell =>
      obtain ⟨cell', hcell', hbecomes⟩ := cell?_touch (c := d) mark.toList f hcell
      obtain ⟨n, hn, -⟩ := Option.bind_eq_some_iff.mp hcell
      rw [hcell', hbecomes.eq]
      rintro ⟨m, -, hnumber⟩
      rw [hn] at hnumber
      exact hfamily (ht.family_eq (List.mem_of_getElem? hd) (List.mem_of_getElem? he) hnumber hn)

theorem Traced.obeyed (ht : Traced bs p) (h : p.perform? operation = some r) :
    Obeys p r operation := by
  cases operation with
  | newRoot => trivial
  | child n scope => trivial
  | copy n => trivial
  | resolve n path => trivial
  | mark n depth =>
    obtain ⟨c, hc, hmark⟩ := Option.bind_eq_some_iff.mp h
    obtain ⟨number, hnumber, -⟩ := Option.map_eq_some_iff.mp hmark
    have hlt := (ht.heldAt hc).cells number (Context.mem_of_cellAt? hnumber)
    obtain ⟨cell, hcell, hbecomes⟩ := cells_mark? (c := c) depth (List.getElem?_eq_getElem hlt)
    rw [hmark, Option.getD_some] at hcell
    refine ⟨c, hc, ?_⟩
    rw [style?, cell?, hnumber, Option.bind_some, hcell, Option.map_some,
      hbecomes.style.mpr (.inr hnumber)]
  | record n d =>
    obtain ⟨c, hc, rfl⟩ := Option.map_eq_some_iff.mp h
    exact ⟨c, hc, (shared_touch [] _ (ht.heldAt hc)).trans (if_pos rfl)⟩
  | count n =>
    obtain ⟨c, hc, rfl⟩ := Option.map_eq_some_iff.mp h
    exact ⟨c, hc, (shared_touch [] _ (ht.heldAt hc)).trans (if_pos rfl)⟩

theorem Traced.effect (ht : Traced bs p) (h : p.perform? operation = some r) :
    Effect bs p operation r where
  obeyed := ht.obeyed h
  born := fun _ hb => ht.born h hb
  marked := fun _ _ _ he hne => ht.marked h he hne
  tallied := fun _ _ he hne => ht.tallied h he hne
  apart := fun _ _ hfounder hother _ _ he hderives => ht.apart h hfounder hother he hderives

end

/-- The context has a scope at each of its depths and at no other, and all references find what
they are looked up in. -/
structure Complete (p : Pool) (c : Context) : Prop where
  cells : ∀ depth, (p.cell? c depth).isSome = true ↔ depth ≤ c.depth
  references : ∀ path, p.lookUp? c path = some (p.resolve c path).1

/-- Whom a context shares its scopes and its tally with. -/
structure Shares (bs : List Birth) (p : Pool) (e : Context) : Prop where
  scopes : ∀ depth ≤ e.depth, ∃ i c n, Opener bs p i c n ∧ e.cellAt? depth = some n ∧
    ∀ (j' : Nat) (e' : Context) (depth' : Nat), p.contexts[j']? = some e' →
      (e'.cellAt? depth' = some n ↔ Derives bs i j' ∧ depth' = c.depth)
  tally : ∃ i c, Founder bs p i c ∧ ∀ (j' : Nat) (e' : Context), p.contexts[j']? = some e' →
    (e'.family = e.family ↔ Derives bs i j') ∧ (Derives bs i j' → p.shared e' = p.shared e)

/-- The operation names a context that is there, and a depth that this context has. -/
def Operation.Fits (p : Pool) : Operation → Prop
  | newRoot => True
  | mark n depth => ∃ c, p.contexts[n]? = some c ∧ depth ≤ c.depth
  | child n _ | copy n | resolve n _ | record n _ | count n => n < p.contexts.length

theorem Traced.complete {bs : List Birth} {p : Pool} {c : Context} (ht : Traced bs p)
    (hc : c ∈ p.contexts) : Complete p c where
  cells := (ht.held c hc).isSome_cell?_iff
  references := lookUp?_eq_resolve (ht.held c hc)

theorem Traced.shares {bs : List Birth} {p : Pool} {e : Context} (ht : Traced bs p)
    (he : e ∈ p.contexts) : Shares bs p e where
  scopes := by
    intro depth hdepth
    have hheld := ht.held e he
    obtain ⟨cell, hcell⟩ := Option.isSome_iff_exists.mp ((hheld.isSome_cell?_iff depth).mpr hdepth)
    obtain ⟨n, hn, -⟩ := Option.bind_eq_some_iff.mp hcell
    obtain ⟨i, c, hopener⟩ := ht.exists_opener n (hheld.cells n (Context.mem_of_cellAt? hn))
    exact ⟨i, c, n, hopener, hn, fun _ _ depth' he' => ht.cellAt?_iff hopener he' depth'⟩
  tally := by
    obtain ⟨i, c, hfounder, hfamily⟩ := ht.exists_founder e.family (ht.held e he).family
    refine ⟨i, c, hfounder, fun j' e' he' => ?_⟩
    have hiff := ht.family_eq_iff hfounder he'
    rw [hfamily] at hiff
    refine ⟨hiff, fun hderives => ?_⟩
    rw [shared, shared, hiff.mpr hderives]

theorem isSome_perform?_iff (p : Pool) (operation : Operation) :
    (p.perform? operation).isSome = true ↔ operation.Fits p := by
  cases operation with
  | newRoot => simp [perform?, Operation.Fits]
  | mark n depth =>
    constructor
    · intro h
      obtain ⟨r, hr⟩ := Option.isSome_iff_exists.mp h
      obtain ⟨c, hc, hmark⟩ := Option.bind_eq_some_iff.mp hr
      obtain ⟨number, hnumber, -⟩ := Option.map_eq_some_iff.mp hmark
      exact ⟨c, hc, Context.cellAt?_depth_lt hnumber⟩
    · rintro ⟨c, hc, hdepth⟩
      have hlt : depth < (c.root :: c.inner.reverse).length := by
        simp only [List.length_cons, List.length_reverse]
        exact Nat.lt_succ_of_le hdepth
      simp [perform?, hc, mark?, Context.cellAt?, List.getElem?_eq_getElem hlt]
  | child n scope => simp [perform?, Operation.Fits]
  | copy n => simp [perform?, Operation.Fits]
  | resolve n path => simp [perform?, Operation.Fits]
  | record n d => simp [perform?, Operation.Fits]
  | count n => simp [perform?, Operation.Fits]

/-- Whatever history a pool has, its contexts are complete, and they share scopes and tallies with
the contexts derived from the same opener or root. Later on they keep their numbers and see the
same, up to marks and additions to the tally. Whatever fits can be done next, and it has its effect
on the contexts derived from one and on no others. -/
theorem run?_keeps_sharing (history more : List Operation) (p q : Pool)
    (hp : run? {} history = some p) (hq : p.run? more = some q) :
    (∀ (n : Nat) (c : Context), p.contexts[n]? = some c →
      Complete p c ∧ Shares (births history) p c ∧ q.contexts[n]? = some c ∧ Later p q c) ∧
    ∀ operation, ((p.perform? operation).isSome = true ↔ operation.Fits p) ∧
      ∀ r, p.perform? operation = some r → Effect (births history) p operation r := by
  have hempty : Traced (births []) {} := traced_empty
  have ht : Traced (births history) p := hempty.run? hp
  constructor
  · intro n c hc
    have hmem := List.mem_of_getElem? hc
    exact ⟨ht.complete hmem, ht.shares hmem, ht.later_run? hq hc⟩
  · intro operation
    exact ⟨isSome_perform?_iff p operation, fun r hr => ht.effect hr⟩

/-- Two roots, a child of the first, a copy of the child, and a child of the copy. -/
def twoFamilies : List Operation :=
  [.newRoot, .child 0 { names := ["row"] }, .copy 1, .newRoot, .child 2 { names := ["cell"] }]

/-- The key of the scope around the innermost one, asked for in the last context. -/
def outerKey : Operation :=
  .resolve 4 { spelling := "@key", depth := 1, parts := ["key"], data := true }

/-- A key that is asked for through the child of a copy marks the scope for the copy and for its
original, and not for the roots. -/
theorem sharing_outerKey :
    ∃ p q, run? {} twoFamilies = some p ∧ p.run? [outerKey] = some q ∧
      (p.contexts.map (p.style? · 1) =
        [none, some .values, some .values, none, some .values]) ∧
      (p.contexts.map (q.style? · 1) =
        [none, some .entries, some .entries, none, some .entries]) ∧
      (∀ (n : Nat) (c : Context), p.contexts[n]? = some c → Complete p c ∧ Later p q c) ∧
      Effect (births twoFamilies) p outerKey q := by
  have hp : run? {} twoFamilies = some ((run? {} twoFamilies).getD {}) := by decide +kernel
  have hq : ((run? {} twoFamilies).getD {}).run? [outerKey] =
      some ((((run? {} twoFamilies).getD {}).run? [outerKey]).getD {}) := by decide +kernel
  have hstep : ((run? {} twoFamilies).getD {}).perform? outerKey =
      some ((((run? {} twoFamilies).getD {}).run? [outerKey]).getD {}) := by decide +kernel
  obtain ⟨hcontexts, hnext⟩ := run?_keeps_sharing twoFamilies [outerKey] _ _ hp hq
  refine ⟨_, _, hp, hq, by decide +kernel, by decide +kernel, fun n c hc => ?_, (hnext _).2 _ hstep⟩
  obtain ⟨hcomplete, -, -, hlater⟩ := hcontexts n c hc
  exact ⟨hcomplete, hlater⟩

end Stencil.Pool
