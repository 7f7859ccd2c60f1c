import Stencil.Proofs.Text
import Stencil.Proofs.Scope.History

/-!
# Hops out of scopes

A hop takes a reference out of the innermost scope and does nothing else: it
stands for the same one scope further in, whatever that scope introduces, and it
asks the same scope for its key. In the text of a reference a hop is two dots
and a slash, and only a reference that begins with an at sign can ask for a key.
-/

namespace Stencil

namespace Handlebars.Path

def out (path : Path) (hops : Nat) : Path :=
  { path with depth := path.depth + hops }

/-- The text of a reference behind some hops. -/
def hop : Nat → String → String
  | 0, s => s
  | n + 1, s => "../" ++ hop n s

/-- What a reference is resolved by: all of it but its exact spelling. -/
structure SameTarget (path other : Path) : Prop where
  depth : path.depth = other.depth
  parts : path.parts = other.parts
  isKey : path.isKey = other.isKey

theorem segments_hop {s : List Char} (h : s.head? ≠ some '@') :
    segments ('.' :: '.' :: '/' :: s) = ['.', '.'] :: segments s := by
  have hdots : Text.fields '/' ['.', '.'] = [['.', '.']] := by decide
  have hfields := Text.fields_append '/' ['.', '.'] s
  rw [hdots] at hfields
  rw [segments, segments, withoutSign_of_head? h]
  exact hfields

theorem isKey_ofText {s : List Char} (h : s.head? ≠ some '@') : (ofText s).isKey = false := by
  rw [isKey, decide_eq_false_iff_not]
  intro (hs : String.ofList s = "@key")
  rw [← String.toList_ofList (l := s), hs] at h
  exact h rfl

theorem sameTarget_ofText_hop {s : List Char} (h : s.head? ≠ some '@') :
    SameTarget (ofText ('.' :: '.' :: '/' :: s)) ((ofText s).out 1) where
  depth := by
    simp only [ofText, out, segments_hop h, List.countP_cons, decide_true, if_true]
  parts := by
    have hnames : names ['.', '.'] = [] := by decide
    simp only [ofText, out, segments_hop h, List.flatMap_cons, hnames, List.nil_append]
  isKey := (isKey_ofText (by simp)).trans (isKey_ofText h).symm

theorem head?_hop {s : String} (h : s.toList.head? ≠ some '@') (n : Nat) :
    (hop n s).toList.head? ≠ some '@' := by
  cases n with
  | zero => exact h
  | succ n => simp [hop]

/-- A text behind hops is the reference that leaves as many scopes more. -/
theorem sameTarget_hop {s : String} (h : s.toList.head? ≠ some '@') (n : Nat) :
    SameTarget (parse (hop n s)) ((parse s).out n) := by
  induction n with
  | zero => exact ⟨rfl, rfl, rfl⟩
  | succ n ih =>
    have hlist : (hop (n + 1) s).toList = '.' :: '.' :: '/' :: (hop n s).toList := by
      simp [hop]
    have hstep := sameTarget_ofText_hop (head?_hop h n)
    rw [parse, hlist]
    refine ⟨?_, hstep.parts.trans ih.parts, hstep.isKey.trans ih.isKey⟩
    rw [hstep.depth]
    change (parse (hop n s)).depth + 1 = (parse s).depth + (n + 1)
    rw [ih.depth, out, Nat.add_assoc]

end Handlebars.Path

open Handlebars (Path)

namespace Scopes

theorem resolve_congr {path other : Path} (h : Path.SameTarget path other) (scopes : List Scope) :
    resolve scopes path = resolve scopes other := by
  rw [resolve, resolve, h.depth, Path.joined, Path.joined, h.parts, h.isKey]

/-- Inner scopes have no part in a reference that leaves them all. -/
theorem resolve_append (inner scopes : List Scope) (path : Path) :
    resolve (inner ++ scopes) (path.out inner.length) = resolve scopes path := by
  have hdrop : (inner ++ scopes).drop (path.depth + inner.length) = scopes.drop path.depth := by
    rw [Nat.add_comm, List.drop_length_add_append]
  have hleave : (inner ++ scopes).length < path.depth + inner.length ↔
      scopes.length < path.depth := by
    rw [List.length_append]
    omega
  rw [resolve, resolve]
  simp only [Path.out, hdrop, hleave]
  rfl

theorem mark_resolve {path : Path} (h : path.isKey = false) (scopes : List Scope) :
    (resolve scopes path).mark = none := by
  unfold resolve
  split
  · rfl
  split
  · rfl
  split
  · rfl
  rw [h]
  rfl

/-- A scope that is asked for its key is one of those around the reference. -/
theorem le_of_mark_resolve {scopes : List Scope} {path : Path} {depth : Nat}
    (h : (resolve scopes path).mark = some depth) : depth ≤ scopes.length := by
  unfold resolve at h
  split at h
  · cases h
  split at h
  · cases h
  next scope outer hdrop =>
  have hlength := congrArg List.length hdrop
  rw [List.length_drop, List.length_cons] at hlength
  split at h
  · cases h
  split at h
  · split at h
    · cases h
    · cases h
      omega
  · cases h

end Scopes

namespace Pool

variable {p : Pool} {c : Context}

/-- The pool with contexts nested in one another below `c`, one for each scope from the outermost
inwards, and the innermost of these contexts. -/
def descend (p : Pool) (c : Context) : List Scope → Pool × Context
  | [] => (p, c)
  | scope :: inner => (p.child c scope).descend (p.nextBelow c) inner

/-- The number of the scope that a reference marks. -/
def marked? (p : Pool) (c : Context) (path : Path) : Option Nat :=
  (Scopes.resolve (p.scopes c) path).mark.bind c.cellAt?

theorem resolve_eq (p : Pool) (c : Context) (path : Path) :
    p.resolve c path =
      ((Scopes.resolve (p.scopes c) path).text, ((p.marked? c path).map p.markCell).getD p) := by
  rw [resolve, marked?, Option.map_bind]
  rfl

theorem scopes_descend_of_held {d : Context} (hd : d.Held p) (c : Context) (inner : List Scope) :
    (p.descend c inner).1.scopes d = p.scopes d := by
  induction inner generalizing p c with
  | nil => rfl
  | cons scope inner ih =>
    rw [descend, ih (hd.child c scope), scopes_child_of_held hd]

theorem scopes_descend (hc : c.Held p) (inner : List Scope) :
    (p.descend c inner).1.scopes (p.descend c inner).2 = inner.reverse ++ p.scopes c := by
  induction inner generalizing p c with
  | nil => rfl
  | cons scope inner ih =>
    rw [descend, ih (hc.nextBelow scope), scopes_child hc, List.reverse_cons, List.append_assoc,
      List.singleton_append]

/-- The scopes around a context are found at the same depths from the contexts below it. -/
theorem cellAt?_descend (inner : List Scope) {depth : Nat} (h : depth ≤ c.depth) :
    (p.descend c inner).2.cellAt? depth = c.cellAt? depth := by
  induction inner generalizing p c with
  | nil => rfl
  | cons scope inner ih =>
    have hbelow : depth ≤ (p.nextBelow c).depth := Nat.le_succ_of_le h
    rw [descend, ih hbelow, cellAt?_nextBelow, if_neg (by omega)]

/-- What is seen through hops out of all the contexts below one is what this one sees, and the
scope that is marked is the same. -/
theorem resolve_descend (hc : c.Held p) (inner : List Scope) (path : Path) :
    let (q, e) := p.descend c inner
    q.marked? e (path.out inner.length) = p.marked? c path ∧
      q.resolve e (path.out inner.length) = q.resolve c path ∧
      (q.resolve c path).1 = (p.resolve c path).1 := by
  have hinner := scopes_descend hc inner
  have hsame := scopes_descend_of_held hc c inner
  have hresolve := Scopes.resolve_append inner.reverse (p.scopes c) path
  rw [List.length_reverse] at hresolve
  have hmarked (q : Pool) (hq : q.scopes c = p.scopes c) : q.marked? c path = p.marked? c path := by
    rw [marked?, marked?, hq]
  generalize hqe : p.descend c inner = below at *
  obtain ⟨q, e⟩ := below
  have hmark : q.marked? e (path.out inner.length) = p.marked? c path := by
    rw [marked?, marked?, hinner, hresolve]
    cases hdepth : (Scopes.resolve (p.scopes c) path).mark with
    | none => rfl
    | some depth =>
      have hle := Scopes.le_of_mark_resolve hdepth
      rw [length_scopes hc] at hle
      have hcell := cellAt?_descend (p := p) inner hle
      rw [hqe] at hcell
      exact hcell
  refine ⟨hmark, ?_, ?_⟩
  · rw [resolve_eq, resolve_eq, hmark, hmarked q hsame, hinner, hsame, hresolve]
  · rw [resolve_eq, resolve_eq, hsame]

/-- A reference that does not ask for a key marks nothing. -/
theorem resolve_of_not_key {path : Path} (h : path.isKey = false) (p : Pool) (c : Context) :
    p.resolve c path = ((Scopes.resolve (p.scopes c) path).text, p) := by
  rw [resolve_eq, marked?, Scopes.mark_resolve h]
  rfl

/-- Hops out of nested scopes lead back to where the scopes were opened, whatever these introduce:
for any reference as for any text of one without an at sign, which moreover marks nothing. -/
theorem resolve_hop {history : List Operation} {p : Pool} {c : Context}
    (hp : run? {} history = some p) (hc : c ∈ p.contexts) (inner : List Scope) :
    let (q, e) := p.descend c inner
    (∀ path : Path,
      q.resolve e (path.out inner.length) = q.resolve c path ∧
      (q.resolve c path).1 = (p.resolve c path).1 ∧
      q.marked? e (path.out inner.length) = p.marked? c path) ∧
    ∀ s : String, s.toList.head? ≠ some '@' →
      ∃ text, q.resolve e (.parse (Path.hop inner.length s)) = (text, q) ∧
        p.resolve c (.parse s) = (text, p) := by
  have hempty : Traced (births []) {} := traced_empty
  have htraced : Traced (births history) p := hempty.run? hp
  have hheld := htraced.held c hc
  have hdescend (path : Path) := resolve_descend hheld inner path
  generalize p.descend c inner = below at *
  obtain ⟨q, e⟩ := below
  refine ⟨fun path => ?_, fun s hs => ?_⟩
  · obtain ⟨hmark, hsame, htext⟩ := hdescend path
    exact ⟨hsame, htext, hmark⟩
  · obtain ⟨-, hsame, htext⟩ := hdescend (.parse s)
    have hkey : (Path.parse s).isKey = false := Path.isKey_ofText hs
    have htarget := Path.sameTarget_hop hs inner.length
    have hhop : (Path.parse (Path.hop inner.length s)).isKey = false := htarget.isKey.trans hkey
    have hout : ((Path.parse s).out inner.length).isKey = false := hkey
    rw [resolve_of_not_key hout, resolve_of_not_key hkey] at hsame
    rw [resolve_of_not_key hkey, resolve_of_not_key hkey] at htext
    refine ⟨_, ?_, resolve_of_not_key hkey p c⟩
    rw [resolve_of_not_key hhop, Scopes.resolve_congr htarget]
    exact Prod.ext ((Prod.mk.inj hsame).1.trans htext) rfl

def rowLoop : List Operation :=
  [.newRoot, .child 0 { names := ["row"] }]

/-- A scope that writes a member of the row in another way, and one that provides a row itself. -/
def shadows : List Scope :=
  [{ names := ["cell"], replacements := some (.ofList [("row.id", "cell_id")]) },
    { names := ["row", "n"] }]

/-- Two hops lead past scopes that would change what stands for the member, or provide a key. -/
theorem resolve_hop_shadows :
    ∃ p c, run? {} rowLoop = some p ∧ c ∈ p.contexts ∧
      ((p.descend c shadows).1.resolve (p.descend c shadows).2 (.parse "row.id")).1 = "cell_id" ∧
      (∃ text, (p.descend c shadows).1.resolve (p.descend c shadows).2 (.parse "../../row.id") =
          (text, (p.descend c shadows).1) ∧
        p.resolve c (.parse "row.id") = (text, p) ∧ text = "row.id") ∧
      (p.descend c shadows).1.marked? (p.descend c shadows).2 ((Path.parse "@key").out 2) =
        some 1 := by
  have hp : run? {} rowLoop = some ((run? {} rowLoop).getD {}) := by decide +kernel
  have hc : (⟨0, [1], 0⟩ : Context) ∈ ((run? {} rowLoop).getD {}).contexts := by decide +kernel
  obtain ⟨hpaths, htexts⟩ := resolve_hop hp hc shadows
  refine ⟨_, _, hp, hc, by decide +kernel, ?_, ?_⟩
  · obtain ⟨text, hbelow, habove⟩ := htexts "row.id" (by decide)
    have htext := congrArg Prod.fst habove
    exact ⟨text, hbelow, habove, htext.symm.trans (by decide +kernel)⟩
  · obtain ⟨-, -, hmarked⟩ := hpaths (.parse "@key")
    exact hmarked.trans (by decide +kernel)

end Pool
end Stencil
