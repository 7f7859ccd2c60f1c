import Stencil.Proofs.Handlebars.Seam

/-!
# What a reader gathers

No two texts are neighbours among the segments of a template, and so none are
among the statements that are read, on any level. If a condition holds of the
texts of a template and of what its tags ask for, and if a block has it whenever
its opening tag has its own, then it holds of every statement that is read.
-/

namespace Stencil.Handlebars

open Text (Position)

namespace Segment

/-- No text stands directly behind another. -/
def Apart : List Segment → Prop
  | s :: t :: segments => (s.isText = true → t.isText = false) ∧ Apart (t :: segments)
  | _ => True

theorem apart_cons {s : Segment} {segments : List Segment} (hs : s.isText = false)
    (h : Apart segments) : Apart (s :: segments) := by
  cases segments with
  | nil => trivial
  | cons t segments => exact ⟨by simp [hs], h⟩

theorem apart_tail {s : Segment} {segments : List Segment} (h : Apart (s :: segments)) :
    Apart segments := by
  cases segments with
  | nil => trivial
  | cons t segments => exact h.2

theorem apart_consText {segments : List Segment} (run : List Char) (h : Apart segments) :
    Apart (consText run segments) := by
  unfold consText
  split
  · exact h
  · next more segments _ =>
    cases segments with
    | nil => trivial
    | cons t segments => exact h
  · next _ hfirst =>
    cases segments with
    | nil => trivial
    | cons t segments =>
      refine ⟨fun _ => ?_, h⟩
      cases t with
      | text more => exact absurd rfl (hfirst more segments)
      | tag position t => rfl
      | broken position fault => rfl

theorem apart_scan (position : Position) (s : List Char) : Apart (scan position s) := by
  fun_induction scan position s with
  | case1 position s hcut => exact apart_consText s trivial
  | case2 position s before after hcut _ _ hclose => exact apart_consText _ trivial
  | case3 position s before after hcut _ here hslash body rest hclose _ literal ih =>
    exact apart_consText _ ih
  | case4 position s before after hcut _ here hslash ih =>
    apply apart_consText
    split
    · trivial
    · next t rest hread => exact apart_cons rfl (ih t rest hread)

theorem apart_tidy (left : Bool) (segments : List Segment) : Apart (tidy left segments) := by
  induction segments generalizing left with
  | nil => trivial
  | cons segment segments ih =>
    cases segment with
    | text run => exact apart_consText _ (ih false)
    | tag position t => exact apart_cons rfl (ih t.trimRight)
    | broken position fault => exact apart_cons rfl (ih false)

end Segment

theorem apart_cons_of_not_content {s : Statement} {body : List Statement}
    (hs : s.isContent = false) (h : Apart body) : Apart (s :: body) := by
  cases body with
  | nil => trivial
  | cons t body => exact ⟨by simp [hs], h⟩

theorem apart_cons_content {s : Statement} {body : List Statement}
    (hbody : ∀ t ∈ body.head?, t.isContent = false) (h : Apart body) : Apart (s :: body) := by
  cases body with
  | nil => trivial
  | cons t body => exact ⟨fun _ => hbody t rfl, h⟩

theorem apart_reverse {body : List Statement} (h : Apart body) : Apart body.reverse := by
  have hturn : ∀ (front : List Statement) (s : Statement) (back : List Statement),
      Apart (s :: front) → Apart (s :: back) → Apart (front.reverse ++ s :: back) := by
    intro front
    induction front with
    | nil => exact fun s back _ hback => hback
    | cons t front ih =>
      intro s back hfront hback
      rw [List.reverse_cons, List.append_assoc, List.singleton_append]
      refine ih t (s :: back) hfront.2 ⟨fun ht => ?_, hback⟩
      rw [Bool.eq_false_iff]
      intro hs
      rw [hfront.1 hs] at ht
      cases ht
  cases body with
  | nil => trivial
  | cons s body =>
    rw [List.reverse_cons]
    exact hturn body s [] h trivial

/-- Statements that keep to a condition, no text directly behind another. -/
structure Gathered (P : Statement → Prop) (body : List Statement) : Prop where
  all : AllBody P body
  apart : Apart body

namespace Gathered

variable {P : Statement → Prop} {body : List Statement}

theorem nil : Gathered P [] := ⟨trivial, trivial⟩

theorem cons {s : Statement} (h : Gathered P body) (hs : s.All P)
    (hcontent : s.isContent = false) : Gathered P (s :: body) :=
  ⟨⟨hs, h.all⟩, apart_cons_of_not_content hcontent h.apart⟩

theorem reverse (h : Gathered P body) : Gathered P body.reverse where
  all := allBody_reverse.mpr h.all
  apart := apart_reverse h.apart

end Gathered

/-- A block keeps to a condition on statements if its opening tag keeps to one on opening tags. -/
def Inherits (P : Statement → Prop) (Q : Opening → Prop) : Prop :=
  ∀ (opening : Opening) (program : Program) (inverse : Option Program), Q opening →
    program.blockParams = opening.blockParams → Apart program.body →
    (∀ other ∈ inverse, other.blockParams = [] ∧ Apart other.body) →
    P (.block opening.helper opening.args program inverse)

section
variable (P : Statement → Prop) (Q : Opening → Prop)

structure OpenBlock.Gathered (b : OpenBlock) : Prop where
  opening : Q b.opening
  main : ∀ p ∈ b.main, Handlebars.Gathered P p.body ∧ p.blockParams = b.opening.blockParams
  before : Handlebars.Gathered P b.before

structure Nesting.Gathered (n : Nesting) : Prop where
  current : Handlebars.Gathered P n.current
  blocks : ∀ b ∈ n.blocks, b.Gathered P Q

def Directive.Keeps : Directive → Prop
  | .comment text => P (.comment text)
  | .mustache head args escaped => P (.mustache head args escaped)
  | .embed name args => P (.embed name args)
  | .opening o => Q o
  | .otherwise => True
  | .chain call => ∀ o, Opening.parse call = .ok o → Q o
  | .closing _ => True

def Segment.Keeps : Segment → Prop
  | .text run => P (.content (String.ofList run))
  | .tag _ t => ∀ d, Directive.ofTag t = .ok d → d.Keeps P Q
  | .broken .. => True

end

/-- No text was read last. -/
def Nesting.Ready (n : Nesting) : Prop :=
  ∀ s ∈ n.current.head?, s.isContent = false

section
variable {P : Statement → Prop} {Q : Opening → Prop} (hblock : Inherits P Q)
include hblock

theorem OpenBlock.all_complete {b : OpenBlock} {current : List Statement} (h : b.Gathered P Q)
    (hcurrent : Handlebars.Gathered P current) : (b.complete current).All P := by
  have hbody := hcurrent.reverse
  unfold complete
  split
  · next main hmain =>
    obtain ⟨hgathered, hnames⟩ := h.main main hmain
    rw [Statement.all_block, allInverse_some]
    refine ⟨hblock b.opening main _ h.opening hnames hgathered.apart ?_, hgathered.all, hbody.all⟩
    rintro other ⟨⟩
    exact ⟨rfl, hbody.apart⟩
  · rw [Statement.all_block]
    exact ⟨hblock b.opening _ none h.opening rfl hbody.apart (by simp), hbody.all, trivial⟩

theorem OpenBlock.gathered_complete {b : OpenBlock} {current : List Statement}
    (h : b.Gathered P Q) (hcurrent : Handlebars.Gathered P current) :
    Handlebars.Gathered P (b.complete current :: b.before) := by
  apply h.before.cons (all_complete hblock h hcurrent)
  unfold complete
  split <;> rfl

end

namespace Nesting

variable {P : Statement → Prop} {Q : Opening → Prop} {n m : Nesting} {position : Position}

theorem gathered_push {s : Statement} (h : n.Gathered P Q) (hs : s.All P)
    (hcontent : s.isContent = false) : (n.push s).Gathered P Q ∧ (n.push s).Ready :=
  ⟨⟨h.current.cons hs hcontent, h.blocks⟩, by simpa [Ready, push] using hcontent⟩

theorem gathered_enter {opening : Opening} {chained : Bool} (h : n.Gathered P Q)
    (hopening : Q opening) :
    (n.enter position opening chained).Gathered P Q ∧ (n.enter position opening chained).Ready :=
  ⟨⟨.nil, List.forall_mem_cons.mpr ⟨⟨hopening, by simp, h.current⟩, h.blocks⟩⟩,
    by simp [Ready, enter]⟩

theorem gathered_invert (h : n.Gathered P Q) (hinvert : n.invert = .ok m) :
    m.Gathered P Q ∧ m.Ready := by
  obtain ⟨b, blocks, hblocks, -, rfl⟩ := invert_eq_ok.mp hinvert
  have hbelow := h.blocks
  rw [hblocks, List.forall_mem_cons] at hbelow
  refine ⟨⟨.nil, List.forall_mem_cons.mpr ⟨⟨hbelow.1.opening, ?_, hbelow.1.before⟩, hbelow.2⟩⟩,
    by simp [Ready]⟩
  rintro p ⟨⟩
  exact ⟨h.current.reverse, rfl⟩

section
variable (hblock : Inherits P Q)
include hblock

theorem gathered_close {name : String} {current : List Statement} {blocks : List OpenBlock}
    (hcurrent : Handlebars.Gathered P current) (hblocks : ∀ b ∈ blocks, b.Gathered P Q)
    (hclose : close name current blocks = .ok m) : m.Gathered P Q ∧ m.Ready := by
  induction blocks generalizing current with
  | nil => cases hclose
  | cons b blocks ih =>
    rw [List.forall_mem_cons] at hblocks
    have hgathered := OpenBlock.gathered_complete hblock hblocks.1 hcurrent
    rw [close] at hclose
    split at hclose
    · exact ih hgathered hblocks.2 hclose
    · split at hclose
      · cases hclose
        refine ⟨⟨hgathered, hblocks.2⟩, ?_⟩
        simp only [Ready, List.head?_cons, Option.mem_some_iff, forall_eq']
        unfold OpenBlock.complete
        split <;> rfl
      · cases hclose

/-- A tag adds what it asks for and no text. -/
theorem gathered_step {d : Directive} (h : n.Gathered P Q) (hd : d.Keeps P Q)
    (hstep : n.step position d = .ok m) : m.Gathered P Q ∧ m.Ready := by
  cases d with
  | comment text =>
    cases hstep
    exact gathered_push h hd rfl
  | mustache head args escaped =>
    cases hstep
    exact gathered_push h hd rfl
  | embed name args =>
    cases hstep
    exact gathered_push h hd rfl
  | opening opening =>
    obtain ⟨-, rfl⟩ := step_opening_eq_ok.mp hstep
    exact gathered_enter h hd
  | otherwise => exact gathered_invert h hstep
  | chain call =>
    obtain ⟨inner, opening, hinvert, hopening, rfl⟩ := step_chain_eq_ok.mp hstep
    exact gathered_enter (gathered_invert h hinvert).1 (hd opening hopening)
  | closing name => exact gathered_close hblock h.current h.blocks hstep

/-- What is read from texts and tags that keep to the conditions does so, too. -/
theorem gathered_run {segments : List Segment} (h : n.Gathered P Q)
    (hready : (∃ segment ∈ segments.head?, segment.isText = true) → n.Ready)
    (hsegments : ∀ segment ∈ segments, segment.Keeps P Q) (hapart : Segment.Apart segments)
    (hrun : n.run segments = .ok m) : m.Gathered P Q := by
  induction segments generalizing n with
  | nil =>
    cases hrun
    exact h
  | cons segment segments ih =>
    rw [List.forall_mem_cons] at hsegments
    have htail := Segment.apart_tail hapart
    cases segment with
    | text run =>
      have hcurrent : n.Ready := hready ⟨_, rfl, rfl⟩
      have hpushed : (n.push (.content (String.ofList run))).Gathered P Q :=
        ⟨⟨⟨hsegments.1, h.current.all⟩, apart_cons_content hcurrent h.current.apart⟩, h.blocks⟩
      apply ih hpushed _ hsegments.2 htail hrun
      rintro ⟨next, hnext, htext⟩
      cases segments with
      | nil => cases hnext
      | cons second segments =>
        cases hnext
        rw [hapart.1 rfl] at htext
        cases htext
    | tag position t =>
      obtain ⟨next, happly, hrest⟩ := run_tag_eq_ok hrun
      obtain ⟨d, hdirective, hstep⟩ := apply_eq_ok.mp happly
      obtain ⟨hnext, hafter⟩ := gathered_step hblock h (hsegments.1 d hdirective) hstep
      exact ih hnext (fun _ => hafter) hsegments.2 htail hrest
    | broken position fault => cases hrun

end

end Nesting

/-- The statements of a template keep to what its texts and its tags keep to. -/
theorem Program.gathered_ofText {P : Statement → Prop} {Q : Opening → Prop}
    (hblock : Inherits P Q) {source : List Char} {p : Program}
    (hsegments : ∀ segment ∈ Segment.ofSource source, segment.Keeps P Q)
    (h : ofText source = .ok p) : Gathered P p.body := by
  obtain ⟨current, hrun, rfl⟩ := ofText_eq_ok_iff.mp h
  have hstart : Nesting.Gathered P Q {} := ⟨.nil, by simp⟩
  have hn := Nesting.gathered_run hblock hstart (fun _ => by simp [Nesting.Ready]) hsegments
    (Segment.apart_tidy false _) hrun
  exact hn.current.reverse

end Stencil.Handlebars
