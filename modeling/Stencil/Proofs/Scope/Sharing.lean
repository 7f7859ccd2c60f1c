import Stencil.Proofs.Scope.Pool

/-!
# Who shares what

A history of a pool tells which context was made from which. Of all contexts,
those derived from the one that opened a scope hold this scope, always at the
same depth, and those derived from one root are of one family. A new context
keeps this so: it holds what its parent holds, and the scope it opens.
-/

namespace Stencil.Pool

inductive Birth
  | root
  | child (parent : Nat) (scope : Scope)
  | copy (parent : Nat)
deriving Repr, DecidableEq

namespace Birth

def parent? : Birth → Option Nat
  | root => none
  | child n _ => some n
  | copy n => some n

/-- Whether the new context opens a scope of its own. -/
def opens : Birth → Bool
  | copy _ => false
  | _ => true

end Birth

def Operation.birth? : Operation → Option Birth
  | newRoot => some .root
  | child n scope => some (.child n scope)
  | copy n => some (.copy n)
  | _ => none

/-- How the contexts came to be, in the order of their numbers. -/
def births (history : List Operation) : List Birth :=
  history.filterMap Operation.birth?

/-- The context `j` is `i` or was made from it, in any number of steps. -/
inductive Derives (bs : List Birth) (i : Nat) : Nat → Prop
  | self : Derives bs i i
  | next {j k : Nat} {b : Birth} (h : Derives bs i j) (hb : bs[k]? = some b)
      (hparent : b.parent? = some j) : Derives bs i k

/-- Every context was made from one before it. -/
def Ordered (bs : List Birth) : Prop :=
  ∀ (k : Nat) (b : Birth), bs[k]? = some b → ∀ j, b.parent? = some j → j < k

section
variable {bs : List Birth} {b : Birth} {i j : Nat}

theorem Derives.append (h : Derives bs i j) (more : List Birth) : Derives (bs ++ more) i j := by
  induction h with
  | self => exact .self
  | @next j k b _ hb hparent ih =>
    obtain ⟨hlt, -⟩ := List.getElem?_eq_some_iff.mp hb
    exact .next ih (by rw [List.getElem?_append_left hlt, hb]) hparent

/-- A later birth does not make a context a descendant that was not one before. -/
theorem derives_append_of_lt (hbs : Ordered bs) (hj : j < bs.length) :
    Derives (bs ++ [b]) i j ↔ Derives bs i j := by
  refine ⟨fun h => ?_, fun h => h.append [b]⟩
  induction h with
  | self => exact .self
  | @next j k b' _ hb hparent ih =>
    rw [List.getElem?_append_left hj] at hb
    have hlt := hbs k b' hb j hparent
    exact .next (ih (by omega)) hb hparent

theorem derives_append_length :
    Derives (bs ++ [b]) i bs.length ↔
      i = bs.length ∨ ∃ j, b.parent? = some j ∧ Derives (bs ++ [b]) i j := by
  have hlast : (bs ++ [b])[bs.length]? = some b := by simp
  constructor
  · intro h
    cases h with
    | self => exact .inl rfl
    | @next j _ b' h hb hparent =>
      rw [hlast] at hb
      cases hb
      exact .inr ⟨j, hparent, h⟩
  · rintro (rfl | ⟨j, hparent, h⟩)
    · exact .self
    · exact .next h hlast hparent

theorem Derives.le (hbs : Ordered bs) (h : Derives bs i j) : i ≤ j := by
  induction h with
  | self => exact Nat.le_refl i
  | @next j k b _ hb hparent ih =>
    have hlt := hbs k b hb j hparent
    omega

theorem Ordered.append (hbs : Ordered bs) (hb : ∀ j, b.parent? = some j → j < bs.length) :
    Ordered (bs ++ [b]) := by
  intro k b' hk j hparent
  rcases Nat.lt_trichotomy k bs.length with hlt | rfl | hgt
  · rw [List.getElem?_append_left hlt] at hk
    exact hbs k b' hk j hparent
  · simp only [List.getElem?_concat_length, Option.some.injEq] at hk
    subst hk
    exact hb j hparent
  · rw [List.getElem?_eq_none (by simp; omega)] at hk
    cases hk

end

/-- The context `c` has the number `i`, and it opened the scope with the number `n`. -/
structure Opener (bs : List Birth) (p : Pool) (i : Nat) (c : Context) (n : Nat) : Prop where
  context : p.contexts[i]? = some c
  opens : ∃ b, bs[i]? = some b ∧ b.opens = true
  cell : c.cellAt? c.depth = some n

/-- The context `c` has the number `i`, and it is a root. -/
structure Founder (bs : List Birth) (p : Pool) (i : Nat) (c : Context) : Prop where
  context : p.contexts[i]? = some c
  root : bs[i]? = some .root

/-- The pool that a history leads to: scopes and families are held by the contexts derived from
their openers and founders. -/
structure Traced (bs : List Birth) (p : Pool) : Prop where
  length : p.contexts.length = bs.length
  ordered : Ordered bs
  held : ∀ c ∈ p.contexts, c.Held p
  exists_opener : ∀ n < p.cells.length, ∃ i c, Opener bs p i c n
  cellAt?_iff : ∀ {i n : Nat} {c : Context}, Opener bs p i c n → ∀ {j : Nat} {e : Context},
    p.contexts[j]? = some e → ∀ depth, e.cellAt? depth = some n ↔ Derives bs i j ∧ depth = c.depth
  exists_founder : ∀ f < p.families.length, ∃ i c, Founder bs p i c ∧ c.family = f
  family_eq_iff : ∀ {i : Nat} {c : Context}, Founder bs p i c → ∀ {j : Nat} {e : Context},
    p.contexts[j]? = some e → (e.family = c.family ↔ Derives bs i j)
  family_eq : ∀ {c e : Context} {d depth n : Nat}, c ∈ p.contexts → e ∈ p.contexts →
    c.cellAt? d = some n → e.cellAt? depth = some n → c.family = e.family

theorem traced_empty : Traced [] {} where
  length := rfl
  ordered := fun _ _ h => by cases h
  held := fun _ h => by cases h
  exists_opener := fun _ h => by cases h
  cellAt?_iff := fun h => by cases h.context
  exists_founder := fun _ h => by cases h
  family_eq_iff := fun h => by cases h.context
  family_eq := fun h => by cases h

section
variable {bs : List Birth} {p q : Pool}

theorem Traced.heldAt (h : Traced bs p) {j : Nat} {c : Context} (hc : p.contexts[j]? = some c) :
    c.Held p :=
  h.held c (List.mem_of_getElem? hc)

/-- Operations that make no context keep all numbers. -/
theorem Traced.of_same (h : Traced bs p) (hcontexts : q.contexts = p.contexts)
    (hcells : q.cells.length = p.cells.length)
    (hfamilies : q.families.length = p.families.length) : Traced bs q where
  length := by rw [hcontexts, h.length]
  ordered := h.ordered
  held := fun c hc => (h.held c (hcontexts ▸ hc)).of_cells (Nat.le_of_eq hcells.symm) hfamilies
  exists_opener := by
    intro n hn
    obtain ⟨i, c, hopener⟩ := h.exists_opener n (hcells ▸ hn)
    exact ⟨i, c, by rw [hcontexts]; exact hopener.context, hopener.opens, hopener.cell⟩
  cellAt?_iff := by
    intro i n c hopener j e he
    rw [hcontexts] at he
    exact h.cellAt?_iff ⟨hcontexts ▸ hopener.context, hopener.opens, hopener.cell⟩ he
  exists_founder := by
    intro f hf
    obtain ⟨i, c, hfounder, hfamily⟩ := h.exists_founder f (hfamilies ▸ hf)
    exact ⟨i, c, ⟨by rw [hcontexts]; exact hfounder.context, hfounder.root⟩, hfamily⟩
  family_eq_iff := by
    intro i c hfounder j e he
    rw [hcontexts] at he
    exact h.family_eq_iff ⟨hcontexts ▸ hfounder.context, hfounder.root⟩ he
  family_eq := fun hc he => h.family_eq (hcontexts ▸ hc) (hcontexts ▸ he)

/-- The context `e` is new: it holds the scopes of its parent and the one it opens, and belongs to
the parent's family or founds one. -/
structure Bears (p : Pool) (b : Birth) (e : Context) (r : Pool) : Prop where
  contexts : r.contexts = p.contexts ++ [e]
  held : e.Held r
  cells : r.cells.length = p.cells.length + b.opens.toNat
  families : r.families.length = p.families.length + (decide (b = .root)).toNat
  parent : ∀ k, b.parent? = some k → k < p.contexts.length
  old : ∀ n < p.cells.length, ∀ depth, e.cellAt? depth = some n ↔
    ∃ k c, b.parent? = some k ∧ p.contexts[k]? = some c ∧ c.cellAt? depth = some n
  new : b.opens = true → ∀ depth, e.cellAt? depth = some p.cells.length ↔ depth = e.depth
  kin : ∀ k c, b.parent? = some k → p.contexts[k]? = some c → e.family = c.family
  founder : b = .root → e.family = p.families.length

section
variable {b : Birth} {e : Context} {r : Pool} {i j n : Nat} {c : Context}

/-- A context is the new one or was there before. -/
theorem Bears.context (h : Bears p b e r) (hj : r.contexts[j]? = some c) :
    j < p.contexts.length ∧ p.contexts[j]? = some c ∨ j = p.contexts.length ∧ c = e := by
  rw [h.contexts] at hj
  rcases Nat.lt_trichotomy j p.contexts.length with hlt | rfl | hgt
  · rw [List.getElem?_append_left hlt] at hj
    exact .inl ⟨hlt, hj⟩
  · simp only [List.getElem?_concat_length, Option.some.injEq] at hj
    exact .inr ⟨rfl, hj.symm⟩
  · rw [List.getElem?_eq_none (by simp; omega)] at hj
    cases hj

theorem Bears.context_of_lt (h : Bears p b e r) (hj : p.contexts[j]? = some c) :
    r.contexts[j]? = some c := by
  obtain ⟨hlt, -⟩ := List.getElem?_eq_some_iff.mp hj
  rw [h.contexts, List.getElem?_append_left hlt, hj]

theorem Bears.context_new (h : Bears p b e r) : r.contexts[p.contexts.length]? = some e := by
  rw [h.contexts, List.getElem?_concat_length]

/-- The new context is derived from its parent's ancestors. -/
theorem Bears.derives_iff (h : Bears p b e r) (ht : Traced bs p)
    (hi : i < p.contexts.length) :
    Derives (bs ++ [b]) i p.contexts.length ↔ ∃ k, b.parent? = some k ∧ Derives bs i k := by
  have hne : i ≠ bs.length := by
    rw [← ht.length]
    omega
  rw [ht.length, derives_append_length, or_iff_right hne]
  refine exists_congr fun k => and_congr_right fun hk => ?_
  exact derives_append_of_lt ht.ordered (by rw [← ht.length]; exact h.parent k hk)

/-- No context that was there before is derived from the new one. -/
theorem Traced.not_derives (ht : Traced bs p)
    (hj : j < p.contexts.length) : ¬ Derives (bs ++ [b]) p.contexts.length j := by
  intro hderives
  rw [ht.length] at hj hderives
  have hle := ((derives_append_of_lt ht.ordered hj).mp hderives).le ht.ordered
  omega

theorem Bears.birth (ht : Traced bs p) (hi : i < p.contexts.length) :
    (bs ++ [b])[i]? = bs[i]? :=
  List.getElem?_append_left (by rw [← ht.length]; exact hi)

theorem Bears.opener (h : Bears p b e r) (ht : Traced bs p)
    (hopener : Opener bs p i c n) : Opener (bs ++ [b]) r i c n where
  context := h.context_of_lt hopener.context
  opens := by
    obtain ⟨hlt, -⟩ := List.getElem?_eq_some_iff.mp hopener.context
    rw [Bears.birth ht hlt]
    exact hopener.opens
  cell := hopener.cell

theorem Opener.lt (hopener : Opener bs p i c n) (ht : Traced bs p) : n < p.cells.length :=
  (ht.heldAt hopener.context).cells n (Context.mem_of_cellAt? hopener.cell)

/-- An opener opened its scope before, or is the new context. -/
theorem Bears.opener_cases (h : Bears p b e r) (ht : Traced bs p)
    (hopener : Opener (bs ++ [b]) r i c n) :
    i < p.contexts.length ∧ Opener bs p i c n ∨
      i = p.contexts.length ∧ c = e ∧ b.opens = true ∧ n = p.cells.length := by
  rcases h.context hopener.context with ⟨hlt, hcontext⟩ | ⟨rfl, rfl⟩
  · refine .inl ⟨hlt, hcontext, ?_, hopener.cell⟩
    rw [← Bears.birth (b := b) ht hlt]
    exact hopener.opens
  · obtain ⟨b', hb', hopens⟩ := hopener.opens
    rw [ht.length, List.getElem?_concat_length] at hb'
    cases hb'
    refine .inr ⟨rfl, rfl, hopens, ?_⟩
    have hcell := hopener.cell
    rw [(h.new hopens _).mpr rfl] at hcell
    exact (Option.some.inj hcell).symm

theorem Bears.cellAt?_iff (h : Bears p b e r) (ht : Traced bs p)
    (hopener : Opener (bs ++ [b]) r i c n) {d : Context} (hd : r.contexts[j]? = some d)
    (depth : Nat) :
    d.cellAt? depth = some n ↔ Derives (bs ++ [b]) i j ∧ depth = c.depth := by
  rcases h.opener_cases ht hopener with ⟨hi, hopener⟩ | ⟨rfl, rfl, hopens, rfl⟩
  · rcases h.context hd with ⟨hj, hd⟩ | ⟨rfl, rfl⟩
    · rw [ht.cellAt?_iff hopener hd, derives_append_of_lt ht.ordered (ht.length ▸ hj)]
    · -- The new context has the scope where its parent has it.
      rw [h.old n (hopener.lt ht), h.derives_iff ht hi]
      constructor
      · rintro ⟨k, above, hparent, habove, hcell⟩
        obtain ⟨hderives, hdepth⟩ := (ht.cellAt?_iff hopener habove depth).mp hcell
        exact ⟨⟨k, hparent, hderives⟩, hdepth⟩
      · rintro ⟨⟨k, hparent, hderives⟩, hdepth⟩
        have habove := List.getElem?_eq_getElem (h.parent k hparent)
        exact ⟨k, _, hparent, habove, (ht.cellAt?_iff hopener habove depth).mpr ⟨hderives, hdepth⟩⟩
  · rcases h.context hd with ⟨hj, hd⟩ | ⟨rfl, rfl⟩
    · refine iff_of_false ?_ fun hderives => ht.not_derives hj hderives.1
      intro hcell
      have hlt := (ht.heldAt hd).cells _ (Context.mem_of_cellAt? hcell)
      exact Nat.lt_irrefl _ hlt
    · rw [h.new hopens]
      exact ⟨fun hdepth => ⟨.self, hdepth⟩, fun hderives => hderives.2⟩

theorem Bears.family_eq_iff (h : Bears p b e r) (ht : Traced bs p)
    (hfounder : Founder (bs ++ [b]) r i c) {d : Context} (hd : r.contexts[j]? = some d) :
    d.family = c.family ↔ Derives (bs ++ [b]) i j := by
  rcases h.context hfounder.context with ⟨hi, hc⟩ | ⟨rfl, rfl⟩
  · have hfounder : Founder bs p i c := ⟨hc, by rw [← Bears.birth (b := b) ht hi, hfounder.root]⟩
    rcases h.context hd with ⟨hj, hd⟩ | ⟨rfl, rfl⟩
    · rw [ht.family_eq_iff hfounder hd, derives_append_of_lt ht.ordered (ht.length ▸ hj)]
    · rw [h.derives_iff ht hi]
      cases hparent : b.parent? with
      | none =>
        have hroot : b = .root := by cases b <;> simp_all [Birth.parent?]
        have hlt := (ht.heldAt hc).family
        rw [h.founder hroot]
        exact iff_of_false (by omega) (by simp)
      | some k =>
        have habove := List.getElem?_eq_getElem (h.parent k hparent)
        rw [h.kin k _ hparent habove, ht.family_eq_iff hfounder habove]
        simp
  · have hroot := hfounder.root
    rw [ht.length, List.getElem?_concat_length] at hroot
    cases hroot
    rcases h.context hd with ⟨hj, hd⟩ | ⟨rfl, rfl⟩
    · refine iff_of_false ?_ (ht.not_derives hj)
      have hlt := (ht.heldAt hd).family
      rw [h.founder rfl]
      omega
    · exact iff_of_true rfl .self

/-- The new context is of the family of every context that has one of its scopes. -/
theorem Bears.family_eq (h : Bears p b e r) (ht : Traced bs p) {d depth : Nat}
    (hc : c ∈ p.contexts) (hold : c.cellAt? d = some n) (hnew : e.cellAt? depth = some n) :
    c.family = e.family := by
  have hlt := (ht.held c hc).cells n (Context.mem_of_cellAt? hold)
  obtain ⟨k, above, hparent, habove, hcell⟩ := (h.old n hlt depth).mp hnew
  rw [h.kin k above hparent habove]
  exact ht.family_eq hc (List.mem_of_getElem? habove) hold hcell

theorem Traced.bears (ht : Traced bs p) (h : Bears p b e r) : Traced (bs ++ [b]) r where
  length := by simp [h.contexts, ht.length]
  ordered := ht.ordered.append fun j hj => by rw [← ht.length]; exact h.parent j hj
  held := by
    intro c hc
    rw [h.contexts, List.mem_append, List.mem_singleton] at hc
    rcases hc with hc | rfl
    · exact (ht.held c hc).mono (by rw [h.cells]; omega) (by rw [h.families]; omega)
    · exact h.held
  exists_opener := by
    intro n hn
    by_cases hold : n < p.cells.length
    · obtain ⟨i, c, hopener⟩ := ht.exists_opener n hold
      exact ⟨i, c, h.opener ht hopener⟩
    · have hopens : b.opens = true := by
        rw [h.cells] at hn
        cases hopens : b.opens <;> simp_all
      have hnew : n = p.cells.length := by
        rw [h.cells, hopens] at hn
        simp only [Bool.toNat_true] at hn
        omega
      refine ⟨_, e, h.context_new, ⟨b, ?_, hopens⟩, hnew ▸ (h.new hopens _).mpr rfl⟩
      rw [ht.length, List.getElem?_concat_length]
  cellAt?_iff := fun hopener _ _ hd depth => h.cellAt?_iff ht hopener hd depth
  exists_founder := by
    intro f hf
    by_cases hold : f < p.families.length
    · obtain ⟨i, c, hfounder, hfamily⟩ := ht.exists_founder f hold
      obtain ⟨hlt, -⟩ := List.getElem?_eq_some_iff.mp hfounder.context
      exact ⟨i, c, ⟨h.context_of_lt hfounder.context, by rw [Bears.birth ht hlt, hfounder.root]⟩,
        hfamily⟩
    · have hroot : b = .root := by
        rw [h.families] at hf
        by_cases hroot : b = .root <;> simp_all
      have hnew : f = p.families.length := by
        rw [h.families, hroot] at hf
        simp only [decide_true, Bool.toNat_true] at hf
        omega
      refine ⟨_, e, ⟨h.context_new, ?_⟩, hnew ▸ h.founder hroot⟩
      rw [ht.length, List.getElem?_concat_length, hroot]
  family_eq_iff := fun hfounder _ _ hd => h.family_eq_iff ht hfounder hd
  family_eq := by
    intro c d depth depth' n hc hd hcell hcell'
    rw [h.contexts, List.mem_append, List.mem_singleton] at hc hd
    rcases hc with hc | rfl <;> rcases hd with hd | rfl
    · exact ht.family_eq hc hd hcell hcell'
    · exact h.family_eq ht hc hcell hcell'
    · exact (h.family_eq ht hd hcell' hcell).symm
    · rfl

end

theorem bears_newRoot (p : Pool) :
    Bears p .root ⟨p.cells.length, [], p.families.length⟩ p.newRoot where
  contexts := rfl
  held := ⟨by simp, by simp [newRoot], by simp [newRoot]⟩
  cells := by simp [newRoot, Birth.opens]
  families := by simp [newRoot]
  parent := fun _ h => by cases h
  old := by
    intro n hn depth
    refine iff_of_false ?_ fun ⟨_, _, h, _⟩ => by cases h
    intro h
    have hmem := Context.mem_of_cellAt? h
    simp only [List.mem_singleton] at hmem
    omega
  new := by
    intro _ depth
    cases depth <;> simp [Context.cellAt?, Context.depth]
  kin := fun _ _ h => by cases h
  founder := fun _ => rfl

section
variable {c : Context} {k : Nat}

theorem bears_child (hk : p.contexts[k]? = some c) (hc : c.Held p) (scope : Scope) :
    Bears p (.child k scope) (p.nextBelow c) (p.child c scope) where
  contexts := rfl
  held := hc.nextBelow scope
  cells := by simp [child, Birth.opens]
  families := by simp [child]
  parent := by
    intro _ h
    cases h
    exact (List.getElem?_eq_some_iff.mp hk).1
  old := by
    intro n hn depth
    rw [cellAt?_nextBelow_of_lt hn]
    constructor
    · intro h
      exact ⟨k, c, rfl, hk, h.2⟩
    · rintro ⟨_, d, h, hd, hcell⟩
      cases h
      rw [hk] at hd
      cases hd
      exact ⟨Context.cellAt?_depth_lt hcell, hcell⟩
  new := fun _ _ => cellAt?_nextBelow_length hc
  kin := by
    intro _ d h hd
    cases h
    rw [hk] at hd
    cases hd
    rfl
  founder := fun h => by cases h

theorem bears_copy (hk : p.contexts[k]? = some c) (hc : c.Held p) :
    Bears p (.copy k) c (p.copy c) where
  contexts := rfl
  held := hc.mono (Nat.le_refl _) (Nat.le_refl _)
  cells := by simp [copy, Birth.opens]
  families := by simp [copy]
  parent := by
    intro _ h
    cases h
    exact (List.getElem?_eq_some_iff.mp hk).1
  old := by
    intro n hn depth
    constructor
    · intro h
      exact ⟨k, c, rfl, hk, h⟩
    · rintro ⟨_, d, h, hd, hcell⟩
      cases h
      rw [hk] at hd
      cases hd
      exact hcell
  new := fun h => by cases h
  kin := by
    intro _ d h hd
    cases h
    rw [hk] at hd
    cases hd
    rfl
  founder := fun h => by cases h

end

end

end Stencil.Pool
