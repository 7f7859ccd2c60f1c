import Stencil.Proofs.Scope.History
import Stencil.Proofs.Scope.Merge

/-!
# The innermost scope wins

What a context sees down to a depth is told by the scopes at the depths up to
it: all their names, and for a dotted name what the deepest of them writes that
writes anything. A reference to a member stands in one of these scopes and is
told by them alone, so it does not matter what lies further in, what has been
marked, or what the family has in common.
-/

namespace Stencil.Pool

open Handlebars (Path)

def scopeAt? (p : Pool) (c : Context) (depth : Nat) : Option Scope :=
  (p.cell? c depth).map Cell.scope

def replacementAt? (p : Pool) (c : Context) (dotted : String) (depth : Nat) : Option String :=
  (p.scopeAt? c depth).bind (·.replacement? dotted)

/-- Some scope down to a depth introduces the name. -/
def Introduces (p : Pool) (c : Context) (depth : Nat) (name : String) : Prop :=
  ∃ k ≤ depth, ∃ scope, p.scopeAt? c k = some scope ∧ name ∈ scope.names

/-- A scope down to a depth writes the text for a dotted name, and none between writes any. -/
def Rewrites (p : Pool) (c : Context) (depth : Nat) (dotted text : String) : Prop :=
  ∃ k ≤ depth, p.replacementAt? c dotted k = some text ∧
    ∀ j, k < j → j ≤ depth → p.replacementAt? c dotted j = none

section
variable {bs : List Birth} {history : List Operation} {p q r : Pool} {c : Context}
  {operation : Operation}

/-- The outermost scope of a new context is a root's or its parent's. -/
theorem Traced.root_perform? (ht : Traced bs p) (hp : ∀ c ∈ p.contexts, p.scopeAt? c 0 = some {})
    (h : p.perform? operation = some r) : ∀ c ∈ r.contexts, r.scopeAt? c 0 = some {} := by
  intro c hc
  cases performed_of_perform? ht h with
  | @birth b _ _ hbirth =>
    obtain ⟨⟨e, hcontexts, hinherits⟩, hsame⟩ := ht.born h hbirth
    rw [hcontexts, List.mem_append, List.mem_singleton] at hc
    rcases hc with hc | rfl
    · rw [scopeAt?, (hsame c hc).cells 0]
      exact hp c hc
    · cases b with
      | root =>
        obtain ⟨-, hroot, -⟩ := hinherits
        rw [scopeAt?, hroot]
        rfl
      | child k scope =>
        obtain ⟨d, hd, -, hcells, -⟩ := hinherits
        rw [scopeAt?, hcells 0 (Nat.zero_le _)]
        exact hp d (List.mem_of_getElem? hd)
      | copy k =>
        obtain ⟨d, hd, -, hcells, -⟩ := hinherits
        rw [scopeAt?, hcells 0]
        exact hp d (List.mem_of_getElem? hd)
  | @touch k d hbirth htouched hd mark f hf =>
    rw [updateFamily, contexts_markAll] at hc
    exact ((later_touch _ hf (ht.held c hc)).scopes 0).trans (hp c hc)

theorem Traced.root_run? {more : List Operation} (ht : Traced (births history) p)
    (hp : ∀ c ∈ p.contexts, p.scopeAt? c 0 = some {}) (h : p.run? more = some q) :
    ∀ c ∈ q.contexts, q.scopeAt? c 0 = some {} := by
  induction more generalizing history p with
  | nil =>
    cases h
    exact hp
  | cons operation more ih =>
    obtain ⟨r, hr, hrest⟩ := Option.bind_eq_some_iff.mp h
    exact ih (ht.perform? hr) (ht.root_perform? hp hr) hrest

end

section
variable {p : Pool} {c : Context} {depth : Nat}

/-- The scopes down to a depth, the innermost first and without the root. -/
def scopesTo (p : Pool) (c : Context) (depth : Nat) : List Scope :=
  (p.scopes c).drop (c.depth - depth)

theorem scopesTo_zero (hc : c.Held p) : p.scopesTo c 0 = [] := by
  rw [scopesTo, Nat.sub_zero, ← length_scopes hc, List.drop_length]

theorem scopesTo_succ (hc : c.Held p) (h : depth < c.depth) :
    ∃ scope, p.scopeAt? c (depth + 1) = some scope ∧
      p.scopesTo c (depth + 1) = scope :: p.scopesTo c depth := by
  obtain ⟨cell, outer, hcell, hdrop⟩ :=
    exists_drop_scopes hc (show c.depth - (depth + 1) < c.depth by omega)
  have hdepth : c.depth - (c.depth - (depth + 1)) = depth + 1 := by omega
  have hnext : c.depth - depth = c.depth - (depth + 1) + 1 := by omega
  have houter : p.scopesTo c depth = outer := by
    rw [scopesTo, hnext, ← List.tail_drop, hdrop, List.tail_cons]
  refine ⟨cell.scope, ?_, ?_⟩
  · rw [scopeAt?, ← hdepth, hcell]
    rfl
  · rw [houter]
    exact hdrop

/-- The root is not among them. -/
theorem mem_scopesTo_iff (hc : c.Held p) (h : depth ≤ c.depth) {scope : Scope} :
    scope ∈ p.scopesTo c depth ↔ ∃ k, 0 < k ∧ k ≤ depth ∧ p.scopeAt? c k = some scope := by
  induction depth with
  | zero =>
    rw [scopesTo_zero hc]
    refine iff_of_false nofun ?_
    rintro ⟨k, hpos, hle, -⟩
    omega
  | succ depth ih =>
    obtain ⟨inner, hinner, hscopes⟩ := scopesTo_succ hc (Nat.lt_of_succ_le h)
    rw [hscopes, List.mem_cons, ih (Nat.le_of_succ_le h)]
    constructor
    · rintro (rfl | ⟨k, hpos, hk, hscope⟩)
      · exact ⟨depth + 1, Nat.succ_pos depth, Nat.le_refl _, hinner⟩
      · exact ⟨k, hpos, Nat.le_succ_of_le hk, hscope⟩
    · rintro ⟨k, hpos, hk, hscope⟩
      by_cases hlast : k = depth + 1
      · rw [hlast, hinner] at hscope
        exact .inl (Option.some.inj hscope).symm
      · exact .inr ⟨k, hpos, by omega, hscope⟩

theorem collect_eq (hc : c.Held p) (depth : Nat) :
    p.collect c depth = Scopes.merge (p.scopesTo c (min depth c.depth)) := by
  have hsub : c.depth - depth = c.depth - min depth c.depth := by omega
  rw [collect, Scopes.collect, length_scopes hc, hsub, scopesTo]

theorem rewrites_succ_iff_of_some {dotted text other : String}
    (h : p.replacementAt? c dotted (depth + 1) = some other) :
    p.Rewrites c (depth + 1) dotted text ↔ text = other := by
  constructor
  · rintro ⟨k, hk, htext, hnone⟩
    by_cases hlast : k = depth + 1
    · rw [hlast, h] at htext
      exact (Option.some.inj htext).symm
    · rw [hnone (depth + 1) (by omega) (Nat.le_refl _)] at h
      cases h
  · rintro rfl
    exact ⟨depth + 1, Nat.le_refl _, h, fun j hj hle => by omega⟩

theorem rewrites_succ_iff_of_none {dotted text : String}
    (h : p.replacementAt? c dotted (depth + 1) = none) :
    p.Rewrites c (depth + 1) dotted text ↔ p.Rewrites c depth dotted text := by
  constructor
  · rintro ⟨k, hk, htext, hnone⟩
    have hlast : k ≠ depth + 1 := by
      rintro rfl
      rw [h] at htext
      cases htext
    exact ⟨k, by omega, htext, fun j hj hle => hnone j hj (Nat.le_succ_of_le hle)⟩
  · rintro ⟨k, hk, htext, hnone⟩
    refine ⟨k, Nat.le_succ_of_le hk, htext, fun j hj hle => ?_⟩
    by_cases hlast : j = depth + 1
    · rw [hlast, h]
    · exact hnone j hj (by omega)

variable (hc : c.Held p) (hroot : p.scopeAt? c 0 = some {})
include hc hroot

theorem mem_names_scopesTo (h : depth ≤ c.depth) (name : String) :
    name ∈ (Scopes.merge (p.scopesTo c depth)).names ↔ p.Introduces c depth name := by
  rw [Scopes.mem_merge_names]
  constructor
  · rintro ⟨scope, hscope, hname⟩
    obtain ⟨k, -, hk, hat⟩ := (mem_scopesTo_iff hc h).mp hscope
    exact ⟨k, hk, scope, hat, hname⟩
  · rintro ⟨k, hk, scope, hat, hname⟩
    have hpos : 0 < k := by
      rw [Nat.pos_iff_ne_zero]
      rintro rfl
      rw [hroot] at hat
      cases hat
      cases hname
    exact ⟨scope, (mem_scopesTo_iff hc h).mpr ⟨k, hpos, hk, hat⟩, hname⟩

theorem get?_scopesTo_eq_none_iff (h : depth ≤ c.depth) (dotted : String) :
    (Scopes.merge (p.scopesTo c depth)).replacements.get? dotted = none ↔
      ∀ k ≤ depth, p.replacementAt? c dotted k = none := by
  rw [Scopes.get?_merge, List.findSome?_eq_none_iff]
  constructor
  · intro hall k hk
    rw [replacementAt?, Option.bind_eq_none_iff]
    intro scope hat
    by_cases hzero : k = 0
    · rw [hzero, hroot] at hat
      cases hat
      rfl
    · exact hall scope ((mem_scopesTo_iff hc h).mpr ⟨k, Nat.pos_of_ne_zero hzero, hk, hat⟩)
  · intro hall scope hscope
    obtain ⟨k, -, hk, hat⟩ := (mem_scopesTo_iff hc h).mp hscope
    have hnone := hall k hk
    rwa [replacementAt?, hat, Option.bind_some] at hnone

theorem get?_scopesTo_eq_some_iff (h : depth ≤ c.depth) (dotted text : String) :
    (Scopes.merge (p.scopesTo c depth)).replacements.get? dotted = some text ↔
      p.Rewrites c depth dotted text := by
  rw [Scopes.get?_merge]
  induction depth with
  | zero =>
    rw [scopesTo_zero hc]
    refine iff_of_false nofun ?_
    rintro ⟨k, hk, htext, -⟩
    rw [Nat.le_zero.mp hk, replacementAt?, hroot] at htext
    cases htext
  | succ depth ih =>
    obtain ⟨scope, hscope, hscopes⟩ := scopesTo_succ hc (Nat.lt_of_succ_le h)
    have hhere : p.replacementAt? c dotted (depth + 1) = scope.replacement? dotted := by
      rw [replacementAt?, hscope, Option.bind_some]
    rw [hscopes, List.findSome?_cons, ← hhere]
    cases hwritten : p.replacementAt? c dotted (depth + 1) with
    | some other => rw [rewrites_succ_iff_of_some hwritten, Option.some.injEq, eq_comm]
    | none =>
      rw [rewrites_succ_iff_of_none hwritten]
      exact ih (Nat.le_of_succ_le h)

end

/-- What the scopes down to a depth introduce together. -/
structure Collects (p : Pool) (c : Context) (depth : Nat) : Prop where
  names : ∀ name, name ∈ (p.collect c depth).names ↔ p.Introduces c (min depth c.depth) name
  once : (p.collect c depth).names.Nodup
  rewritten : ∀ dotted text, (p.collect c depth).replacements.get? dotted = some text ↔
    p.Rewrites c (min depth c.depth) dotted text
  kept : ∀ dotted, (p.collect c depth).replacements.get? dotted = none ↔
    ∀ k ≤ min depth c.depth, p.replacementAt? c dotted k = none
  /-- Deeper scopes add names. -/
  grows : ∀ deeper, depth ≤ deeper → (p.collect c depth).names ⊆ (p.collect c deeper).names
  /-- There is nothing deeper than the context. -/
  settled : c.depth ≤ depth → p.collect c depth = p.collect c c.depth

section
variable {p q : Pool} {c e : Context} {depth : Nat}

theorem Introduces.mono {deeper : Nat} (h : depth ≤ deeper) {name : String} :
    p.Introduces c depth name → p.Introduces c deeper name := by
  rintro ⟨k, hk, hscope⟩
  exact ⟨k, Nat.le_trans hk h, hscope⟩

theorem collects (hc : c.Held p) (hroot : p.scopeAt? c 0 = some {}) (depth : Nat) :
    Collects p c depth := by
  have hnames (depth : Nat) (name : String) :
      name ∈ (p.collect c depth).names ↔ p.Introduces c (min depth c.depth) name := by
    rw [collect_eq hc]
    exact mem_names_scopesTo hc hroot (Nat.min_le_right _ _) name
  constructor
  case names => exact hnames depth
  case once =>
    rw [collect_eq hc]
    exact Scopes.nodup_merge_names _
  case rewritten =>
    rw [collect_eq hc]
    exact get?_scopesTo_eq_some_iff hc hroot (Nat.min_le_right _ _)
  case kept =>
    rw [collect_eq hc]
    exact get?_scopesTo_eq_none_iff hc hroot (Nat.min_le_right _ _)
  case grows =>
    intro deeper hle name hname
    rw [hnames] at hname ⊢
    exact hname.mono (by omega)
  case settled =>
    intro hle
    rw [collect_eq hc, collect_eq hc, Nat.min_eq_right hle, Nat.min_self]

/-- The text of a member whose first name is `first`, if it stands in the scope at a depth. -/
inductive MemberText (p : Pool) (c : Context) (depth : Nat) (first dotted : String) : String → Prop
  /-- It belongs to a name, and some scope writes it in another way. -/
  | rewritten {text : String} (hname : p.Introduces c depth first)
      (htext : p.Rewrites c depth dotted text) : MemberText p c depth first dotted text
  /-- It belongs to a name, and all scopes leave it as it is. -/
  | kept (hname : p.Introduces c depth first)
      (hkept : ∀ k ≤ depth, p.replacementAt? c dotted k = none) :
      MemberText p c depth first dotted dotted
  /-- It belongs to the value of the scope. -/
  | ofValue {value : String} (hname : ¬ p.Introduces c depth first)
      (hvalue : (p.scopeAt? c depth).bind Scope.value? = some value) :
      MemberText p c depth first dotted (value ++ "." ++ dotted)
  /-- The scope has no value. -/
  | unbound (hname : ¬ p.Introduces c depth first)
      (hvalue : (p.scopeAt? c depth).bind Scope.value? = none) :
      MemberText p c depth first dotted unresolved

variable {first dotted text : String}

/-- Some text is always meant. -/
theorem exists_memberText (hc : c.Held p) (hroot : p.scopeAt? c 0 = some {})
    (h : depth ≤ c.depth) (first dotted : String) :
    ∃ text, p.MemberText c depth first dotted text := by
  by_cases hname : p.Introduces c depth first
  · cases hget : (Scopes.merge (p.scopesTo c depth)).replacements.get? dotted with
    | some text => exact ⟨text, .rewritten hname
        ((get?_scopesTo_eq_some_iff hc hroot h dotted text).mp hget)⟩
    | none => exact ⟨dotted, .kept hname ((get?_scopesTo_eq_none_iff hc hroot h dotted).mp hget)⟩
  · cases hvalue : (p.scopeAt? c depth).bind Scope.value? with
    | some value => exact ⟨_, .ofValue hname hvalue⟩
    | none => exact ⟨_, .unbound hname hvalue⟩

/-- A reference to a member is looked up in the scope it stands in and in those around it. -/
theorem MemberText.resolve_eq (hc : c.Held p) (hroot : p.scopeAt? c 0 = some {}) {path : Path}
    (hdepth : path.depth < c.depth) (hkey : path.isKey = false)
    (hfirst : path.parts.head? = some first)
    (h : p.MemberText c (c.depth - path.depth) first path.joined text) :
    (p.resolve c path).1 = text := by
  obtain ⟨cell, outer, hcell, hdrop⟩ := exists_drop_scopes hc hdepth
  have hresolve : (p.resolve c path).1 = Scopes.member cell.scope outer first path.joined := by
    obtain ⟨rest, hparts⟩ := List.head?_eq_some_iff.mp hfirst
    have hlength : ¬ c.depth < path.depth := by omega
    simp only [resolve, Scopes.resolve, length_scopes hc, hlength, if_false, hdrop, hparts, hkey,
      Bool.false_eq_true]
  have hscopes : p.scopesTo c (c.depth - path.depth) = cell.scope :: outer := by
    have hsub : c.depth - (c.depth - path.depth) = path.depth := by omega
    rw [scopesTo, hsub, hdrop]
  have hle : c.depth - path.depth ≤ c.depth := Nat.sub_le _ _
  have hnames := mem_names_scopesTo hc hroot hle first
  have hget := get?_scopesTo_eq_some_iff hc hroot hle path.joined
  have hnone := get?_scopesTo_eq_none_iff hc hroot hle path.joined
  rw [hscopes] at hnames hget hnone
  have hhere : (p.scopeAt? c (c.depth - path.depth)).bind Scope.value? = cell.scope.value? := by
    rw [scopeAt?, hcell, Option.map_some, Option.bind_some]
  rw [hresolve, Scopes.member]
  cases h with
  | rewritten hname htext => simp [hnames.mpr hname, (hget _).mpr htext]
  | kept hname hkept => simp [hnames.mpr hname, hnone.mpr hkept]
  | ofValue hname hvalue => simp [mt hnames.mp hname, ← hhere, hvalue]
  | unbound hname hvalue => simp [mt hnames.mp hname, ← hhere, hvalue]

/-- Down to a depth the contexts see the same scopes, whatever is marked. -/
def AgreeTo (p : Pool) (c : Context) (q : Pool) (e : Context) (depth : Nat) : Prop :=
  ∀ k ≤ depth, q.scopeAt? e k = p.scopeAt? c k

theorem AgreeTo.introduces_iff (h : AgreeTo p c q e depth) {name : String} :
    q.Introduces e depth name ↔ p.Introduces c depth name := by
  refine exists_congr fun k => and_congr_right fun hk => ?_
  rw [h k hk]

theorem AgreeTo.replacementAt?_eq (h : AgreeTo p c q e depth) {k : Nat} (hk : k ≤ depth)
    (dotted : String) : q.replacementAt? e dotted k = p.replacementAt? c dotted k := by
  rw [replacementAt?, replacementAt?, h k hk]

theorem AgreeTo.rewrites (h : AgreeTo p c q e depth) (htext : p.Rewrites c depth dotted text) :
    q.Rewrites e depth dotted text := by
  obtain ⟨k, hk, hwritten, hnone⟩ := htext
  refine ⟨k, hk, by rw [h.replacementAt?_eq hk, hwritten], fun j hj hle => ?_⟩
  rw [h.replacementAt?_eq hle, hnone j hj hle]

theorem AgreeTo.memberText (h : AgreeTo p c q e depth)
    (htext : p.MemberText c depth first dotted text) : q.MemberText e depth first dotted text := by
  have hvalue := h depth (Nat.le_refl depth)
  cases htext with
  | rewritten hname htext => exact .rewritten (h.introduces_iff.mpr hname) (h.rewrites htext)
  | kept hname hkept =>
    refine .kept (h.introduces_iff.mpr hname) fun k hk => ?_
    rw [h.replacementAt?_eq hk, hkept k hk]
  | ofValue hname hof => exact .ofValue (mt h.introduces_iff.mp hname) (by rw [hvalue, hof])
  | unbound hname hof => exact .unbound (mt h.introduces_iff.mp hname) (by rw [hvalue, hof])

end

/-- What a context collects is found by a search from the inside outwards. A reference to a member
inside some scope becomes the text that this scope and those around it tell, and whoever sees the
same scopes from there outwards gets the same text. -/
theorem innermost_wins {history : List Operation} {p : Pool} {c : Context}
    (hp : run? {} history = some p) (hc : c ∈ p.contexts) :
    (∀ depth, Collects p c depth) ∧
    ∀ (path : Path) (first : String), path.parts.head? = some first → path.isKey = false →
      path.depth < c.depth →
      (∀ text, (p.resolve c path).1 = text ↔
        p.MemberText c (c.depth - path.depth) first path.joined text) ∧
      ∀ (other : Path) (history' : List Operation) (q : Pool) (e : Context),
        run? {} history' = some q → e ∈ q.contexts → other.parts = path.parts →
        other.isKey = false → other.depth < e.depth →
        e.depth - other.depth = c.depth - path.depth →
        AgreeTo p c q e (c.depth - path.depth) → (q.resolve e other).1 = (p.resolve c path).1 := by
  have hreached {history : List Operation} {p : Pool} {c : Context}
      (hp : run? {} history = some p) (hc : c ∈ p.contexts) :
      c.Held p ∧ p.scopeAt? c 0 = some {} := by
    have hempty : Traced (births []) {} := traced_empty
    have ht : Traced (births history) p := hempty.run? hp
    exact ⟨ht.held c hc, hempty.root_run? nofun hp c hc⟩
  obtain ⟨hheld, hroot⟩ := hreached hp hc
  refine ⟨collects hheld hroot, fun path first hfirst hkey hdepth => ?_⟩
  obtain ⟨meant, hmeant⟩ :=
    exists_memberText hheld hroot (Nat.sub_le c.depth path.depth) first path.joined
  have hresolve := hmeant.resolve_eq hheld hroot hdepth hkey hfirst
  constructor
  · intro text
    constructor
    · intro htext
      rwa [← htext, hresolve]
    · exact fun htext => htext.resolve_eq hheld hroot hdepth hkey hfirst
  · intro other history' q e hq he hparts hkey' hdepth' htarget hagree
    obtain ⟨hheld', hroot'⟩ := hreached hq he
    have hthere := hagree.memberText hmeant
    have hjoined : other.joined = path.joined := by rw [Path.joined, Path.joined, hparts]
    rw [← htarget, ← hjoined] at hthere
    rw [hresolve]
    exact hthere.resolve_eq hheld' hroot' hdepth' hkey' (hparts ▸ hfirst)

/-- A scope that writes a member of its name in another way. -/
def rowScope : Scope where
  names := ["row"]
  replacements := some (.ofList [("row.id", "outer")])

def cellScope : Scope where
  names := ["cell"]
  replacements := some (.ofList [("row.id", "inner")])

def tableScopes : List Operation :=
  [.newRoot, .child 0 rowScope, .child 1 cellScope]

/-- The same scopes below another root, with the outer one once more inside them. It is marked
where it stood first, and a conditional is counted. -/
def nestedTableScopes : List Operation :=
  [.newRoot, .newRoot, .child 1 rowScope, .child 2 cellScope, .child 3 rowScope, .mark 4 1,
    .count 4]

/-- The inner scope wins over the outer one, also for those who leave a scope further in. -/
theorem innermost_wins_table :
    ∃ p c q e, run? {} tableScopes = some p ∧ c ∈ p.contexts ∧
      run? {} nestedTableScopes = some q ∧ e ∈ q.contexts ∧ AgreeTo p c q e 2 ∧
      Collects p c 1 ∧ p.MemberText c 2 "row" "row.id" "inner" ∧
      (p.resolve c (.parse "row.id")).1 = "inner" ∧
      (q.resolve e (.parse "../row.id")).1 = "inner" ∧
      (q.resolve e (.parse "row.id")).1 = "outer" := by
  have hp : run? {} tableScopes = some ((run? {} tableScopes).getD {}) := by decide +kernel
  have hq : run? {} nestedTableScopes = some ((run? {} nestedTableScopes).getD {}) := by
    decide +kernel
  have hc : (⟨0, [2, 1], 0⟩ : Context) ∈ ((run? {} tableScopes).getD {}).contexts := by
    decide +kernel
  have he : (⟨1, [4, 3, 2], 1⟩ : Context) ∈ ((run? {} nestedTableScopes).getD {}).contexts := by
    decide +kernel
  have hmember : ((run? {} tableScopes).getD {}).MemberText ⟨0, [2, 1], 0⟩ 2 "row" "row.id"
      "inner" :=
    .rewritten ⟨1, by decide, rowScope, by decide +kernel, by decide⟩
      ⟨2, by decide, by decide +kernel, fun j hj hle => by omega⟩
  have hagree : AgreeTo ((run? {} tableScopes).getD {}) ⟨0, [2, 1], 0⟩
      ((run? {} nestedTableScopes).getD {}) ⟨1, [4, 3, 2], 1⟩ 2 := by
    unfold AgreeTo
    decide +kernel
  obtain ⟨hcollects, hmembers⟩ := innermost_wins hp hc
  obtain ⟨htext, hseen⟩ := hmembers (.parse "row.id") "row" (by decide) (by decide) (by decide)
  have hinner := (htext "inner").mpr hmember
  have houter := hseen (.parse "../row.id") nestedTableScopes _ _ hq he (by decide) (by decide)
    (by decide) (by decide) hagree
  exact ⟨_, _, _, _, hp, hc, hq, he, hagree, hcollects 1, hmember, hinner, houter.trans hinner,
    by decide +kernel⟩

end Stencil.Pool
