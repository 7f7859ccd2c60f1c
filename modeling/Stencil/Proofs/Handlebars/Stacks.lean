import Stencil.Proofs.Handlebars.Seam
import Stencil.Proofs.Handlebars.TagAt

/-!
# The two stacks of a scanner

There is one more list of statements than there are frames, the outermost frame
has a closing tag of its own, and a chained frame lies on a frame whose inverse
has just begun. Every tag keeps this, so that no stack is ever found empty. Read
side by side, the two stacks are the nesting of open blocks.
-/

namespace Stencil.Handlebars

open Text (Position)

/-- Lists of statements under frames: one list more, and below a chained frame the empty inverse
of the frame that it continues. -/
inductive Linked : List (List Statement) → List Frame → Prop
  | bottom (body : List Statement) : Linked [body] []
  | opened {nodes : List (List Statement)} {frames : List Frame} {f : Frame}
      (body : List Statement) (h : Linked nodes frames) (hchained : f.chained = false) :
      Linked (body :: nodes) (f :: frames)
  | chained {nodes : List (List Statement)} {frames : List Frame} {f g : Frame}
      (body : List Statement) (h : Linked ([] :: nodes) (g :: frames))
      (hmain : g.main.isSome = true) (hchained : f.chained = true) :
      Linked (body :: [] :: nodes) (f :: g :: frames)

namespace Linked

variable {nodes : List (List Statement)} {frames : List Frame} {body other : List Statement}
variable {f : Frame}

theorem top (h : Linked (body :: nodes) frames) (other : List Statement) :
    Linked (other :: nodes) frames := by
  cases h with
  | bottom => exact .bottom other
  | opened _ h hchained => exact .opened other h hchained
  | chained _ h hmain hchained => exact .chained other h hmain hchained

theorem pop (h : Linked (body :: nodes) (f :: frames)) : Linked nodes frames := by
  cases h with
  | opened _ h _ => exact h
  | chained _ h _ _ => exact h

theorem exists_cons (h : Linked nodes frames) : ∃ body more, nodes = body :: more := by
  cases h <;> exact ⟨_, _, rfl⟩

/-- Below the statements of a frame are those around it. -/
theorem exists_cons_cons (h : Linked nodes (f :: frames)) :
    ∃ body outer more, nodes = body :: outer :: more := by
  obtain ⟨body, more, rfl⟩ := h.exists_cons
  obtain ⟨outer, more, rfl⟩ := h.pop.exists_cons
  exact ⟨body, outer, more, rfl⟩

/-- The innermost frame may be changed as long as it is chained to the same frame. -/
theorem change {g : Frame} (h : Linked nodes (f :: frames)) (hsame : g.chained = f.chained) :
    Linked nodes (g :: frames) := by
  cases h with
  | opened body h hchained => exact .opened body h (hsame.trans hchained)
  | chained body h hmain hchained => exact .chained body h hmain (hsame.trans hchained)

theorem length_eq (h : Linked nodes frames) : nodes.length = frames.length + 1 := by
  induction h with
  | bottom body => rfl
  | opened body h hchained ih => exact congrArg (· + 1) ih
  | chained body h hmain hchained ih => exact congrArg (· + 1) ih

theorem link (h : Linked nodes frames) {i : Nat} (hf : frames[i]? = some f)
    (hchained : f.chained = true) :
    ∃ g, frames[i + 1]? = some g ∧ g.main.isSome = true ∧ nodes[i + 1]? = some [] := by
  induction h generalizing i with
  | bottom body => cases hf
  | opened body h hown ih =>
    cases i with
    | zero =>
      obtain rfl := Option.some.inj hf
      exact absurd hchained (Bool.eq_false_iff.mp hown)
    | succ i => exact ih hf
  | @chained _ _ _ g body h hmain _ ih =>
    cases i with
    | zero => exact ⟨g, rfl, hmain, rfl⟩
    | succ i => exact ih hf

theorem bottom_own (h : Linked nodes frames) (hf : frames.getLast? = some f) :
    f.chained = false := by
  cases hchained : f.chained with
  | false => rfl
  | true =>
    rw [List.getLast?_eq_getElem?] at hf
    obtain ⟨g, hg, -⟩ := h.link hf hchained
    have hlength : frames.length - 1 + 1 < frames.length := (List.getElem?_eq_some_iff.mp hg).1
    omega

/-- Frames that are all chained are none. -/
theorem eq_nil (h : Linked nodes frames) (hall : ∀ f ∈ frames, f.chained = true) : frames = [] := by
  by_contra hne
  have hlast := List.getLast?_eq_some_getLast hne
  exact Bool.eq_false_iff.mp (h.bottom_own hlast) (hall _ (List.getLast_mem hne))

end Linked

namespace Stacks

/-- What holds of the stacks whenever a tag has been treated. -/
structure Intact (k : Stacks) : Prop where
  linked : Linked k.nodes k.frames
  depth_le : k.depth ≤ maxNesting

theorem intact_empty : Intact {} := ⟨.bottom [], Nat.zero_le _⟩

/-- The same told by places in the stacks, a place below another being the next one. -/
structure Sound (k : Stacks) : Prop where
  length_eq : k.nodes.length = k.frames.length + 1
  /-- The outermost frame has a closing tag of its own. -/
  bottom : ∀ f, k.frames.getLast? = some f → f.chained = false
  /-- A chained frame continues a frame whose inverse it is, with nothing before it. -/
  link : ∀ i f, k.frames[i]? = some f → f.chained = true →
    ∃ g, k.frames[i + 1]? = some g ∧ g.main.isSome = true ∧ k.nodes[i + 1]? = some []
  depth_le : k.depth ≤ maxNesting

theorem Intact.sound {k : Stacks} (h : k.Intact) : k.Sound where
  length_eq := h.linked.length_eq
  bottom _ := h.linked.bottom_own
  link _ _ := h.linked.link
  depth_le := h.depth_le

section
variable {k k' : Stacks} {blame : Fault → Stop}

theorem Intact.onTop {change : List Statement → Option (List Statement)} (h : k.Intact)
    (hk : k.onTop change = some k') : k'.Intact := by
  obtain ⟨nodes, frames⟩ := k
  cases nodes with
  | nil => cases hk
  | cons body nodes =>
    obtain ⟨body', -, rfl⟩ := Option.map_eq_some_iff.mp hk
    exact ⟨h.linked.top body', h.depth_le⟩

theorem Intact.pushFrame {f : Frame} (h : k.Intact) (hf : f.chained = false)
    (hk : k.pushFrame blame f = .ok k') : k'.Intact := by
  rw [Stacks.pushFrame, hf] at hk
  split at hk
  · cases hk
  · next hdepth =>
    cases hk
    refine ⟨.opened [] h.linked hf, ?_⟩
    have hlt : k.depth < maxNesting := by simpa using hdepth
    rw [depth, List.countP_cons_of_pos (by simp [hf])]
    exact hlt

/-- Behind an `else` the innermost frame has a main program and an empty inverse. -/
theorem Intact.startInverse (h : k.Intact) (hk : k.startInverse blame = .ok k') :
    k'.Intact ∧ ∃ nodes f frames, k'.nodes = [] :: nodes ∧ k'.frames = f :: frames ∧
      f.main.isSome = true := by
  obtain ⟨nodes, frames⟩ := k
  rw [Stacks.startInverse] at hk
  cases frames with
  | nil => cases hk
  | cons f frames =>
    cases hmain : f.main with
    | some main => simp [hmain] at hk
    | none =>
      cases nodes with
      | nil => simp [hmain] at hk
      | cons body nodes =>
        simp only [hmain, Except.ok.injEq] at hk
        subst hk
        refine ⟨⟨(h.linked.top []).change rfl, ?_⟩, nodes, f.invert body, frames, rfl, rfl, rfl⟩
        have hdepth := h.depth_le
        simpa [depth, List.countP_cons, Frame.invert] using hdepth

theorem Intact.chain {nodes : List (List Statement)} {frames : List Frame} {f g : Frame}
    (h : k.Intact) (hnodes : k.nodes = [] :: nodes) (hframes : k.frames = g :: frames)
    (hmain : g.main.isSome = true) (hf : f.chained = true)
    (hk : k.pushFrame blame f = .ok k') : k'.Intact := by
  rw [Stacks.pushFrame, hf] at hk
  cases hk
  refine ⟨?_, ?_⟩
  · have hlinked := h.linked
    rw [hnodes, hframes] at hlinked ⊢
    exact .chained [] hlinked hmain hf
  · rw [depth, List.countP_cons_of_neg (by simp [hf])]
    exact h.depth_le

theorem linked_closeFrames {name : String} {nodes : List (List Statement)} {frames : List Frame}
    (h : Linked nodes frames) (hk : closeFrames blame name nodes frames = .ok k') :
    Linked k'.nodes k'.frames ∧ k'.frames <:+ frames := by
  induction frames generalizing nodes with
  | nil => cases hk
  | cons f frames ih =>
    obtain ⟨body, outer, more, rfl⟩ := h.exists_cons_cons
    rw [closeFrames] at hk
    split at hk
    · cases hk
    · split at hk
      · obtain ⟨hlinked, hsuffix⟩ := ih (h.pop.top _) hk
        exact ⟨hlinked, hsuffix.trans (List.suffix_cons f frames)⟩
      · cases hk
        exact ⟨h.pop.top _, List.suffix_cons f frames⟩

theorem need_eq_ok {α : Type} {o : Option α} {a : α} : need o = .ok a ↔ o = some a := by
  cases o <;> simp [need]

theorem Intact.step {opened : Nat} {d : Directive} (h : k.Intact)
    (hk : k.step blame opened d = .ok k') : k'.Intact := by
  cases d with
  | comment text => exact h.onTop (need_eq_ok.mp hk)
  | mustache head args escaped => exact h.onTop (need_eq_ok.mp hk)
  | embed name args => exact h.onTop (need_eq_ok.mp hk)
  | opening opening => exact h.pushFrame rfl hk
  | otherwise => exact (h.startInverse hk).1
  | chain call =>
    rw [Stacks.step] at hk
    cases hinvert : k.startInverse blame with
    | error e => rw [hinvert] at hk; cases hk
    | ok inner =>
      rw [hinvert, Except.ok_bind] at hk
      obtain ⟨hinner, nodes, g, frames, hnodes, hframes, hmain⟩ := h.startInverse hinvert
      cases hopening : Opening.parse call with
      | error fault => rw [hopening] at hk; cases hk
      | ok opening =>
        rw [hopening] at hk
        have hpush : inner.pushFrame blame ⟨opened, opening, none, true⟩ = .ok k' := hk
        exact hinner.chain hnodes hframes hmain rfl hpush
  | closing name =>
    obtain ⟨hlinked, hsuffix⟩ := linked_closeFrames h.linked hk
    exact ⟨hlinked, Nat.le_trans hsuffix.sublist.countP_le h.depth_le⟩

end

end Stacks

/-- A frame that is the open block, its place being told in bytes. -/
structure Mirrors (source : List Char) (f : Frame) (b : OpenBlock) : Prop where
  position : Position.ofOffset source f.opened = some b.position
  helper : f.opening.helper = b.opening.helper
  args : f.opening.args = b.opening.args
  /-- An `else` takes the names out of the frame. -/
  blockParams : b.main = none → f.opening.blockParams = b.opening.blockParams
  main : f.main = b.main
  chained : f.chained = b.chained

namespace Mirrors

variable {source : List Char} {f : Frame} {b : OpenBlock}

theorem name_eq (h : Mirrors source f b) : f.name = b.name := by
  rw [Frame.name, OpenBlock.name, h.helper]

theorem complete_eq (h : Mirrors source f b) (body : List Statement) :
    f.complete body = b.complete body := by
  rw [Frame.complete, OpenBlock.complete, h.main, h.helper, h.args]
  cases hmain : b.main with
  | none => rw [h.blockParams hmain]
  | some main => rfl

theorem invert (h : Mirrors source f b) (hmain : b.main = none) (body : List Statement) :
    Mirrors source (f.invert body)
      { b with main := some ⟨body.reverse, b.opening.blockParams⟩ } where
  position := h.position
  helper := h.helper
  args := h.args
  blockParams := nofun
  main := by rw [Frame.invert, h.blockParams hmain]
  chained := h.chained

end Mirrors

/-- Stacks that hold what the nesting holds. -/
structure Holds (source : List Char) (k : Stacks) (n : Nesting) : Prop where
  nodes : k.nodes = n.current :: n.blocks.map (·.before)
  frames : List.Forall₂ (Mirrors source) k.frames n.blocks

/-- The same outcome: the same error, or stacks that hold the nesting. -/
inductive Agrees (source : List Char) : Except Stop Stacks → Except SyntaxError Nesting → Prop
  | ok {k : Stacks} {n : Nesting} (h : Holds source k n) : Agrees source (.ok k) (.ok n)
  | fault (e : SyntaxError) : Agrees source (.error (.fault e)) (.error e)

theorem Agrees.eq_error {source : List Char} {result : Except Stop Stacks} {e : SyntaxError}
    (h : Agrees source result (.error e)) : result = .error (.fault e) := by
  cases h
  rfl

theorem Agrees.exists_ok {source : List Char} {result : Except Stop Stacks} {n : Nesting}
    (h : Agrees source result (.ok n)) : ∃ k, result = .ok k ∧ Holds source k n := by
  cases h with
  | ok hholds => exact ⟨_, rfl, hholds⟩

theorem Agrees.error_iff {source : List Char} {result : Except Stop Stacks}
    {expected : Except SyntaxError Nesting} (h : Agrees source result expected) {e : SyntaxError} :
    result = .error (.fault e) ↔ expected = .error e := by
  cases h <;> simp

namespace Holds

variable {source : List Char} {k : Stacks} {n : Nesting}

theorem empty (source : List Char) : Holds source {} {} := ⟨rfl, .nil⟩

theorem onTop (h : Holds source k n) (change : List Statement → Option (List Statement))
    {body : List Statement} (hbody : change n.current = some body) :
    ∃ k', k.onTop change = some k' ∧ Holds source k' { n with current := body } := by
  refine ⟨⟨body :: n.blocks.map (·.before), k.frames⟩, ?_, rfl, h.frames⟩
  rw [Stacks.onTop, h.nodes]
  simp only [hbody]
  rfl

theorem chained_eq (h : Holds source k n) :
    k.frames.map (·.chained) = n.blocks.map (·.chained) := by
  rw [← List.forall₂_eq_eq_eq, List.forall₂_map_left_iff, List.forall₂_map_right_iff]
  exact h.frames.imp fun _ _ hmirrors => hmirrors.chained

theorem countP_chained (h : Holds source k n) (p : Bool → Bool) :
    k.frames.countP (p ·.chained) = n.blocks.countP (p ·.chained) := by
  have hcount := congrArg (List.countP p) h.chained_eq
  rwa [List.countP_map, List.countP_map] at hcount

theorem depth_eq (h : Holds source k n) : k.depth = n.depth :=
  h.countP_chained (!·)

end Holds

section
variable {source : List Char} {k : Stacks} {n : Nesting} {opened : Nat} {position : Position}
variable (hopened : Position.ofOffset source opened = some position)
include hopened

theorem ofFault_eq (fault : Fault) :
    Stop.ofFault source opened fault = .fault ⟨position, fault⟩ := by
  rw [Stop.ofFault, hopened]

theorem agrees_error (fault : Fault) :
    Agrees source (.error (.ofFault source opened fault)) (.error ⟨position, fault⟩) := by
  rw [ofFault_eq hopened]
  exact .fault _

theorem agrees_startInverse (h : Holds source k n) :
    Agrees source (k.startInverse (.ofFault source opened))
      (n.invert.mapError (⟨position, ·⟩)) := by
  obtain ⟨nodes, frames⟩ := k
  obtain ⟨current, blocks⟩ := n
  obtain ⟨rfl, hframes⟩ := h
  rw [Stacks.startInverse, Nesting.invert]
  cases hframes with
  | nil => exact agrees_error hopened .strayElse
  | @cons f b _ _ hmirrors hrest =>
    cases hmain : b.main with
    | some main =>
      simp only [hmirrors.main, hmain, hmirrors.name_eq]
      exact agrees_error hopened (.duplicateElse b.name)
    | none =>
      simp only [hmirrors.main, hmain]
      exact .ok ⟨rfl, .cons (hmirrors.invert hmain current) hrest⟩

theorem holds_enter (h : Holds source k n) (opening : Opening) (chained : Bool) :
    Holds source ⟨[] :: k.nodes, ⟨opened, opening, none, chained⟩ :: k.frames⟩
      (n.enter position opening chained) where
  nodes := congrArg ([] :: ·) h.nodes
  frames := .cons ⟨hopened, rfl, rfl, fun _ => rfl, rfl, rfl⟩ h.frames

theorem agrees_closeFrames (name : String) {current : List Statement} {frames : List Frame}
    {blocks : List OpenBlock} (h : List.Forall₂ (Mirrors source) frames blocks) :
    Agrees source
      (Stacks.closeFrames (.ofFault source opened) name (current :: blocks.map (·.before)) frames)
      ((Nesting.close name current blocks).mapError (⟨position, ·⟩)) := by
  induction h generalizing current with
  | nil => exact agrees_error hopened (.strayClose name)
  | @cons f b frames blocks hmirrors hrest ih =>
    rw [List.map_cons, Stacks.closeFrames, Nesting.close, hmirrors.chained, hmirrors.name_eq,
      hmirrors.complete_eq]
    cases hchained : b.chained with
    | true => exact ih
    | false =>
      by_cases hname : b.name = name
      · simp only [hname, ne_eq, not_true, decide_false, Bool.and_false, Bool.false_eq_true,
          if_false, if_true]
        exact .ok ⟨rfl, hrest⟩
      · simp only [hname, ne_eq, not_false_eq_true, decide_true, Bool.not_false, Bool.and_true,
          if_true, Bool.false_eq_true, if_false]
        exact agrees_error hopened (.mismatchedClose b.name name)

/-- A tag does the same to the stacks as to the nesting. -/
theorem agrees_step (h : Holds source k n) (d : Directive) :
    Agrees source (k.step (.ofFault source opened) opened d)
      ((n.step position d).mapError (⟨position, ·⟩)) := by
  have hpush (s : Statement) : Agrees source (need (k.push s)) (.ok (n.push s)) := by
    obtain ⟨k', hk, hholds⟩ := h.onTop (fun body => some (s :: body)) rfl
    rw [Stacks.push, hk]
    exact .ok hholds
  cases d with
  | comment text => exact hpush (.comment text)
  | mustache head args escaped => exact hpush (.mustache head args escaped)
  | embed name args => exact hpush (.embed name args)
  | opening opening =>
    rw [Stacks.step, Stacks.pushFrame, Nesting.step, h.depth_eq]
    by_cases hdepth : maxNesting ≤ n.depth
    · simp only [hdepth, decide_true, Bool.not_false, Bool.and_true, if_true]
      exact agrees_error hopened (.tooDeep maxNesting)
    · simp only [hdepth, decide_false, Bool.and_false, Bool.false_eq_true, if_false]
      exact .ok (holds_enter hopened h opening false)
  | otherwise => exact agrees_startInverse hopened h
  | chain call =>
    have hinvert := agrees_startInverse hopened h
    rw [Stacks.step, Nesting.step]
    cases hn : n.invert with
    | error fault =>
      rw [hn] at hinvert
      rw [hinvert.eq_error]
      exact .fault _
    | ok m =>
      rw [hn] at hinvert
      obtain ⟨inner, hk, hinner⟩ := hinvert.exists_ok
      rw [hk, Except.ok_bind]
      cases Opening.parse call with
      | error fault => exact agrees_error hopened fault
      | ok opening => exact .ok (holds_enter hopened hinner opening true)
  | closing name =>
    obtain ⟨nodes, frames⟩ := k
    obtain ⟨current, blocks⟩ := n
    obtain ⟨rfl, hframes⟩ := h
    exact agrees_closeFrames hopened name hframes

/-- What a tag asks for is found out and done in the same way. -/
theorem agrees_obey (h : Holds source k n) (t : Tag) :
    Agrees source (k.obey source opened t) (n.apply position t) := by
  rw [Stacks.obey, Directive.ofTagAt_eq, Nesting.apply]
  cases Directive.ofTag t with
  | error fault => exact agrees_error hopened fault
  | ok d => exact agrees_step hopened h d

end

theorem find?_own {source : List Char} {frames : List Frame} {blocks : List OpenBlock}
    (h : List.Forall₂ (Mirrors source) frames blocks) :
    Option.Rel (Mirrors source) (frames.find? (!·.chained)) (blocks.find? (!·.chained)) := by
  induction h with
  | nil => exact .none
  | @cons f b _ _ hmirrors _ ih =>
    rw [List.find?_cons, List.find?_cons, hmirrors.chained]
    cases b.chained with
    | false => exact .some hmirrors
    | true => exact ih

/-- The end of the source finds the same block open, or the same program. -/
theorem Holds.finish_eq {source : List Char} {k : Stacks} {n : Nesting} (h : Holds source k n) :
    k.finish source = n.finish.mapError .fault := by
  have hown := find?_own (List.rel_reverse h.frames)
  rw [Stacks.finish, Nesting.finish, h.nodes]
  cases hf : k.frames.reverse.find? (!·.chained) with
  | none =>
    rw [hf] at hown
    cases hb : n.blocks.reverse.find? (!·.chained) with
    | none => rfl
    | some b => rw [hb] at hown; cases hown
  | some f =>
    rw [hf] at hown
    cases hb : n.blocks.reverse.find? (!·.chained) with
    | none => rw [hb] at hown; cases hown
    | some b =>
      rw [hb] at hown
      cases hown with
      | some hmirrors =>
        simp only
        rw [ofFault_eq hmirrors.position, hmirrors.name_eq]
        rfl

end Stencil.Handlebars
