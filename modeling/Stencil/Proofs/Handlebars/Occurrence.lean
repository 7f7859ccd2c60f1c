import Stencil.Proofs.Handlebars.Seam

/-!
# What becomes of the statements that were read

A statement that was read stays: whatever holds of all statements of the
finished program holds of those that had been read at any point on the way. So
a block that is complete at some tag stands in the program.
-/

namespace Stencil.Handlebars

open Text (Position)

/-- The statement is one of these or stands, at any depth, inside one of them. -/
inductive Statement.OccursIn (s : Statement) : List Statement → Prop
  | here {body : List Statement} (h : s ∈ body) : OccursIn s body
  | main {body : List Statement} {helper : Path} {args : Arguments} {program : Program}
      {inverse : Option Program} (hblock : .block helper args program inverse ∈ body)
      (h : OccursIn s program.body) : OccursIn s body
  | inverse {body : List Statement} {helper : Path} {args : Arguments} {program other : Program}
      (hblock : .block helper args program (some other) ∈ body)
      (h : OccursIn s other.body) : OccursIn s body

theorem Statement.OccursIn.mono {s : Statement} {body body' : List Statement}
    (h : s.OccursIn body) (hsub : body ⊆ body') : s.OccursIn body' := by
  cases h with
  | here hmem => exact .here (hsub hmem)
  | main hblock hin => exact .main (hsub hblock) hin
  | inverse hblock hin => exact .inverse (hsub hblock) hin

mutual

/-- Every condition on what occurs in a statement is one on all of it. -/
theorem Statement.all_of_occursIn {P : Statement → Prop} :
    ∀ s : Statement, (∀ t : Statement, t.OccursIn [s] → P t) → s.All P
  | .content text, h => by
    rw [Statement.All]
    exact h _ (.here List.mem_cons_self)
  | .comment text, h => by
    rw [Statement.All]
    exact h _ (.here List.mem_cons_self)
  | .mustache head args escaped, h => by
    rw [Statement.All]
    exact h _ (.here List.mem_cons_self)
  | .embed name args, h => by
    rw [Statement.All]
    exact h _ (.here List.mem_cons_self)
  | .block helper args ⟨body, blockParams⟩ inverse, h => by
    rw [Statement.All]
    refine ⟨h _ (.here List.mem_cons_self), allBody_of_occursIn body fun t ht => ?_,
      allInverse_of_occursIn inverse fun other hother t ht => ?_⟩
    · exact h t (.main List.mem_cons_self ht)
    · cases hother
      exact h t (.inverse List.mem_cons_self ht)

theorem allBody_of_occursIn {P : Statement → Prop} :
    ∀ body : List Statement, (∀ t : Statement, t.OccursIn body → P t) → AllBody P body
  | [], _ => by
    rw [AllBody]
    trivial
  | s :: body, h => by
    rw [AllBody]
    exact ⟨Statement.all_of_occursIn s fun t ht => h t (ht.mono (by simp)),
      allBody_of_occursIn body fun t ht => h t (ht.mono (List.subset_cons_self s body))⟩

theorem allInverse_of_occursIn {P : Statement → Prop} :
    ∀ inverse : Option Program,
      (∀ other ∈ inverse, ∀ t : Statement, t.OccursIn other.body → P t) → AllInverse P inverse
  | none, _ => by
    rw [AllInverse]
    trivial
  | some ⟨body, blockParams⟩, h => by
    rw [AllInverse]
    exact allBody_of_occursIn body (h ⟨body, blockParams⟩ rfl)

end

theorem Statement.All.self {P : Statement → Prop} {s : Statement} (h : s.All P) : P s := by
  cases s with
  | block helper args program inverse => exact (Statement.all_block.mp h).1
  | _ => simpa only [Statement.All] using h

/-- A condition on all of a body is one on whatever occurs in it. -/
theorem Statement.OccursIn.of_allBody {P : Statement → Prop} {s : Statement}
    {body : List Statement} (h : s.OccursIn body) (hbody : AllBody P body) : P s := by
  induction h with
  | here hmem => exact (allBody_iff.mp hbody s hmem).self
  | main hblock _ ih => exact ih (Statement.all_block.mp (allBody_iff.mp hbody _ hblock)).2.1
  | inverse hblock _ ih =>
    exact ih (allInverse_some.mp (Statement.all_block.mp (allBody_iff.mp hbody _ hblock)).2.2)

variable {P : Statement → Prop}

/-- A condition on all statements that belong to an open block or stand before it. -/
structure OpenBlock.AllRead (P : Statement → Prop) (b : OpenBlock) : Prop where
  before : AllBody P b.before
  main : ∀ main ∈ b.main, AllBody P main.body

structure Nesting.AllRead (P : Statement → Prop) (n : Nesting) : Prop where
  current : AllBody P n.current
  blocks : ∀ b ∈ n.blocks, b.AllRead P

namespace Nesting.AllRead

theorem of_complete {b : OpenBlock} {current : List Statement} {blocks : List OpenBlock}
    (h : AllRead P ⟨b.complete current :: b.before, blocks⟩) :
    AllRead P ⟨current, b :: blocks⟩ := by
  obtain ⟨hall, hbefore⟩ := h.current
  have hparts : AllBody P current ∧ ∀ main ∈ b.main, AllBody P main.body := by
    unfold OpenBlock.complete at hall
    split at hall
    · next main hmain =>
      rw [Statement.all_block, allInverse_some, Program.ofBody, allBody_reverse] at hall
      refine ⟨hall.2.2, fun other hother => ?_⟩
      rw [hmain] at hother
      cases hother
      exact hall.2.1
    · next hmain =>
      rw [Statement.all_block, allBody_reverse] at hall
      exact ⟨hall.2.1, by simp [hmain]⟩
  exact ⟨hparts.1, List.forall_mem_cons.mpr ⟨⟨hbefore, hparts.2⟩, h.blocks⟩⟩

variable {n m : Nesting}

/-- Closing a block completes it. -/
theorem of_close {name : String} {b : OpenBlock} {current : List Statement}
    {blocks : List OpenBlock} (hclose : close name current (b :: blocks) = .ok m)
    (h : m.AllRead P) : AllRead P ⟨b.complete current :: b.before, blocks⟩ := by
  induction blocks generalizing b current with
  | nil =>
    rw [close] at hclose
    split at hclose
    · cases hclose
    · split at hclose
      · cases hclose
        exact h
      · cases hclose
  | cons outer blocks ih =>
    rw [close] at hclose
    split at hclose
    · exact of_complete (ih hclose)
    · split at hclose
      · cases hclose
        exact h
      · cases hclose

theorem of_invert (hinvert : n.invert = .ok m) (h : m.AllRead P) : n.AllRead P := by
  obtain ⟨b, blocks, hblocks, hmain, rfl⟩ := invert_eq_ok.mp hinvert
  obtain ⟨hb, hrest⟩ := List.forall_mem_cons.mp h.blocks
  have hcurrent : AllBody P n.current.reverse := hb.main _ rfl
  refine ⟨allBody_reverse.mp hcurrent, ?_⟩
  rw [hblocks]
  exact List.forall_mem_cons.mpr ⟨⟨hb.before, by simp [hmain]⟩, hrest⟩

theorem of_enter {position : Position} {opening : Opening} {chained : Bool}
    (h : (n.enter position opening chained).AllRead P) : n.AllRead P := by
  obtain ⟨hb, hrest⟩ := List.forall_mem_cons.mp h.blocks
  exact ⟨hb.before, hrest⟩

theorem of_push {s : Statement} (h : (n.push s).AllRead P) : n.AllRead P :=
  ⟨h.current.2, h.blocks⟩

theorem of_step {position : Position} {d : Directive} (hstep : n.step position d = .ok m)
    (h : m.AllRead P) : n.AllRead P := by
  cases d with
  | comment text =>
    cases hstep
    exact h.of_push
  | mustache head args escaped =>
    cases hstep
    exact h.of_push
  | embed name args =>
    cases hstep
    exact h.of_push
  | opening opening =>
    obtain ⟨-, rfl⟩ := step_opening_eq_ok.mp hstep
    exact h.of_enter
  | otherwise => exact h.of_invert hstep
  | chain call =>
    obtain ⟨inner, opening, hinvert, -, rfl⟩ := step_chain_eq_ok.mp hstep
    exact h.of_enter.of_invert hinvert
  | closing name =>
    obtain ⟨current, blocks⟩ := n
    cases blocks with
    | nil => cases hstep
    | cons b blocks => exact (h.of_close hstep).of_complete

/-- Nothing that was read gets lost. -/
theorem of_run {segments : List Segment} (hrun : n.run segments = .ok m) (h : m.AllRead P) :
    n.AllRead P := by
  induction segments generalizing n with
  | nil =>
    cases hrun
    exact h
  | cons segment segments ih =>
    cases segment with
    | text run => exact (ih hrun).of_push
    | tag position t =>
      obtain ⟨next, happly, hrest⟩ := run_tag_eq_ok hrun
      obtain ⟨d, -, hstep⟩ := apply_eq_ok.mp happly
      exact (ih hrest).of_step hstep
    | broken position fault => cases hrun

end Nesting.AllRead

/-- A block that was completed by its closing tag stands in the program. -/
theorem Nesting.occursIn_of_close {name : String} {b : OpenBlock} {blocks : List OpenBlock}
    {current final : List Statement} {next : Nesting} {segments : List Segment}
    (hclose : close name current (b :: blocks) = .ok next)
    (hrun : next.run segments = .ok ⟨final, []⟩) :
    (b.complete current).OccursIn final.reverse := by
  have hfinal : AllRead (·.OccursIn final.reverse) ⟨final, []⟩ :=
    ⟨allBody_reverse.mp (allBody_of_occursIn final.reverse fun _ ht => ht), by simp⟩
  exact ((hfinal.of_run hrun).of_close hclose).current.1.self

end Stencil.Handlebars
