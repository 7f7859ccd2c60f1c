import Stencil.Proofs.Handlebars.Depth
import Stencil.Proofs.Handlebars.Turn

/-!
# The loop of a scanner

What holds at every turn of the loop, whatever the source is: how the two stacks
lie on each other, how deep they are, and that the place stays between two
characters and moves on. The loop therefore never misses anything that it takes
for granted, and it gives what reading the segments gives. The limit on nesting
is met by opening tags alone, and chained blocks are not counted.
-/

namespace Stencil.Handlebars

open Text (Position from? size size_append)
open Segment (backslashes scan trimmedBy unslashed)

namespace Scanner

variable {source : List Char}

/-- The places that the loop comes to. -/
inductive Reached (source : List Char) : Scanner → Prop
  | start : Reached source {}
  | again {s s' : Scanner} (h : Reached source s) (hpos : s.pos < size source)
      (hturn : turn source s = .ok (.again s')) : Reached source s'

theorem Reached.follows {s : Scanner} (h : Reached source s) :
    ∃ n pending before after, Follows source s n pending before after := by
  induction h with
  | start => exact ⟨_, _, _, _, follows_start source⟩
  | again _ _ hturn ih =>
    obtain ⟨n, pending, before, after, hfollows⟩ := ih
    have hanswers := turn_answers hfollows
    rw [hturn] at hanswers
    cases hanswers with
    | again hnext => exact ⟨_, _, _, _, hnext⟩

def Turn.state : Turn → Stacks
  | .last k => k
  | .again s => s.state

/-- A turn keeps the stacks intact, since everything it does with them does. -/
theorem intact_turn {s : Scanner} {next : Turn} (h : s.state.Intact)
    (hturn : turn source s = .ok next) : next.state.Intact := by
  have added {k k' : Stacks} {text : List Char} {strip : Bool} (hk : k.Intact)
      (hadd : need (k.addText text strip) = .ok k') : k'.Intact :=
    hk.onTop (Stacks.need_eq_ok.mp hadd)
  obtain ⟨a, -, hturn⟩ := Except.bind_eq_ok hturn
  cases a with
  | text run =>
    obtain ⟨k, hk, hturn⟩ := Except.bind_eq_ok hturn
    obtain rfl := Except.ok.inj hturn
    exact added h hk
  | escaped run opened =>
    obtain ⟨kept, -, hturn⟩ := Except.bind_eq_ok hturn
    obtain ⟨k, hk, hturn⟩ := Except.bind_eq_ok hturn
    obtain ⟨literal, -, hturn⟩ := Except.bind_eq_ok hturn
    obtain ⟨k', hk', hturn⟩ := Except.bind_eq_ok hturn
    obtain rfl := Except.ok.inj hturn
    exact added (added h hk) hk'
  | tag run opened =>
    obtain ⟨k, hk, hturn⟩ := Except.bind_eq_ok hturn
    obtain ⟨⟨t, stop⟩, -, hturn⟩ := Except.bind_eq_ok hturn
    have obeyed {k : Stacks} (hk : k.Intact)
        (hturn : (k.obey source opened t >>= fun k => .ok (.again ⟨k, t.trimRight, stop⟩)) =
          .ok next) : next.state.Intact := by
      obtain ⟨k', hk', hturn⟩ := Except.bind_eq_ok hturn
      obtain rfl := Except.ok.inj hturn
      obtain ⟨d, -, hstep⟩ := Except.bind_eq_ok hk'
      exact hk.step hstep
    have hk := added h hk
    dsimp only at hturn
    split at hturn
    · obtain ⟨k', hk', hturn⟩ := Except.bind_eq_ok hturn
      exact obeyed (hk.onTop (Stacks.need_eq_ok.mp hk')) hturn
    · exact obeyed hk hturn

theorem Reached.intact {s : Scanner} (h : Reached source s) : s.state.Intact := by
  induction h with
  | start => exact Stacks.intact_empty
  | again _ _ hturn ih => exact intact_turn ih hturn

theorem intact_run {s : Scanner} {k : Stacks} (h : s.state.Intact)
    (hrun : run source s = .ok k) : k.Intact := by
  fun_induction run source s with
  | case1 s hpos e hturn => cases hrun
  | case2 s hpos k' hturn =>
    cases hrun
    exact intact_turn h hturn
  | case3 s hpos s' hturn hlater ih => exact ih (intact_turn h hturn) hrun
  | case4 s hpos s' hturn hlater => cases hrun
  | case5 s hpos =>
    cases hrun
    exact h

/-- A source that is read to its end leaves no frame, and its program is all that is left. -/
theorem finished {k : Stacks} {p : Program} (hrun : run source {} = .ok k)
    (hfinish : k.finish source = .ok p) : k.frames = [] ∧ k.nodes = [p.body.reverse] := by
  have hintact := intact_run Stacks.intact_empty hrun
  rw [Stacks.finish] at hfinish
  cases hown : k.frames.reverse.find? (!·.chained) with
  | some f => rw [hown] at hfinish; cases hfinish
  | none =>
    rw [hown] at hfinish
    have hframes : k.frames = [] := by
      apply hintact.linked.eq_nil
      simpa using hown
    refine ⟨hframes, ?_⟩
    obtain ⟨body, more, hnodes⟩ := hintact.linked.exists_cons
    have hmore := hintact.linked.length_eq
    rw [hframes, hnodes] at hmore
    obtain rfl : more = [] := by simpa using hmore
    rw [hnodes] at hfinish ⊢
    cases hfinish
    simp

theorem turn_pos {s s' : Scanner} (h : Reached source s) (hturn : turn source s = .ok (.again s')) :
    s.pos < s'.pos := by
  obtain ⟨n, pending, before, after, hfollows⟩ := h.follows
  have hanswers := turn_answers hfollows
  rw [hturn] at hanswers
  cases hanswers with
  | again _ hpos _ => exact hpos

theorem turn_error {s : Scanner} {stop : Stop} (h : Reached source s)
    (hturn : turn source s = .error stop) : ∃ e, stop = .fault e := by
  obtain ⟨n, pending, before, after, hfollows⟩ := h.follows
  have hanswers := turn_answers hfollows
  rw [hturn] at hanswers
  cases hanswers with
  | fault e _ => exact ⟨e, rfl⟩

/-- The loop goes on as it would if it began at a place that it comes to. -/
theorem run_of_reached {s : Scanner} (h : Reached source s) : run source {} = run source s := by
  induction h with
  | start => rfl
  | @again s s' h hpos hturn ih =>
    rw [ih]
    conv => lhs; rw [run]
    rw [if_pos hpos, hturn]
    exact if_pos (turn_pos h hturn)

theorem exists_turn_error {s : Scanner} {stop : Stop} (h : Reached source s)
    (hrun : run source s = .error stop) :
    ∃ s', Reached source s' ∧ s'.pos < size source ∧ turn source s' = .error stop := by
  fun_induction run source s with
  | case1 s hpos e hturn =>
    cases hrun
    exact ⟨s, h, hpos, hturn⟩
  | case2 s hpos k hturn => cases hrun
  | case3 s hpos s' hturn hlater ih => exact ih (.again h hpos hturn) hrun
  | case4 s hpos s' hturn hlater => exact absurd (turn_pos h hturn) hlater
  | case5 s hpos => cases hrun

/-- The braces at `opened` are the next that begin a tag, and this is a well-formed opening tag. -/
def OpensAt (source : List Char) (s : Scanner) (opened : Nat) : Prop :=
  ∃ run t stop o, ahead source s.pos = .ok (.tag run opened) ∧
    Tag.readAt source opened = .ok (t, stop) ∧ t.Opens o

theorem exists_opensAt_iff {s : Scanner} {run : List Char} {opened : Nat} {p : Position}
    (h : ahead source s.pos = .ok (.tag run opened)) :
    (∃ opened', OpensAt source s opened' ∧ Position.ofOffset source opened' = some p) ↔
      (∃ t stop o, Tag.readAt source opened = .ok (t, stop) ∧ t.Opens o) ∧
        Position.ofOffset source opened = some p := by
  constructor
  · rintro ⟨opened', ⟨run', t, stop, o, hahead, hread, hopens⟩, hposition⟩
    obtain ⟨-, rfl⟩ := Ahead.tag.inj (Except.ok.inj (h.symm.trans hahead))
    exact ⟨⟨t, stop, o, hread, hopens⟩, hposition⟩
  · rintro ⟨⟨t, stop, o, hread, hopens⟩, hposition⟩
    exact ⟨opened, ⟨run, t, stop, o, h, hread, hopens⟩, hposition⟩

/-- A turn reports the limit at a well-formed opening tag that is next, and nowhere else. -/
theorem turn_tooDeep_iff {s : Scanner} {n : Nesting} {pending before after : List Char}
    (h : Follows source s n pending before after) {p : Position} {limit : Nat} :
    turn source s = .error (.fault ⟨p, .tooDeep limit⟩) ↔
      limit = maxNesting ∧ maxNesting ≤ s.state.depth ∧
        ∃ opened, OpensAt source s opened ∧ Position.ofOffset source opened = some p := by
  have hdepth : s.state.depth = n.depth := h.holds.depth_eq
  cases hcut : Text.cut Tag.braces after with
  | none =>
    obtain ⟨k, hturn, -⟩ := turn_of_text h hcut
    have hahead := ahead_of_cut_none before hcut
    rw [← h.source_eq, ← h.pos_eq] at hahead
    simp [hturn, OpensAt, hahead]
  | some found =>
    obtain ⟨run, rest⟩ := found
    have hahead := ahead_of_cut before hcut
    rw [← h.source_eq, ← h.pos_eq] at hahead
    by_cases hslash : backslashes run = 1
    · obtain ⟨s', _, _, _, hturn, -⟩ := turn_of_escaped h hcut hslash
      rw [if_pos hslash] at hahead
      simp [hturn, OpensAt, hahead]
    rw [if_neg hslash] at hahead
    rw [exists_opensAt_iff hahead, position_of_cut h hcut, Option.some.injEq]
    have hat := Tag.readAt_append (before ++ run) rest
    rw [← source_of_cut h hcut] at hat
    cases hread : Tag.read rest with
    | error fault =>
      obtain ⟨hturn, -⟩ := turn_of_broken h hcut hslash hread
      have hshallow := Tag.shallow_read rest limit
      rw [hread] at hat hshallow
      have hfault : fault ≠ .tooDeep limit := by simpa using hshallow
      simp [-size_append, hturn, hat, hfault]
    | ok found =>
      obtain ⟨t, rest'⟩ := found
      obtain ⟨k, hholds, hturn, -⟩ := turn_of_tag h hcut hslash hread
      have hobey := (agrees_obey (position_of_cut h hcut) hholds t).error_iff
        (e := ⟨p, .tooDeep limit⟩)
      rw [Nesting.apply_eq_tooDeep_iff] at hobey
      rw [hread] at hat
      have hgoOn : turn source s = .error (.fault ⟨p, .tooDeep limit⟩) ↔
          k.obey source (size (before ++ run)) t = .error (.fault ⟨p, .tooDeep limit⟩) := by
        rw [hturn, goOn]
        cases k.obey source (size (before ++ run)) t <;> simp [Except.map]
      have hopens : (∃ t' stop o, Tag.readAt source (size (before ++ run)) = .ok (t', stop) ∧
          t'.Opens o) ↔ ∃ o, t.Opens o := by simp [-size_append, hat]
      have hheld : (n.hold (trimmedBy s.stripNext t.trimLeft (pending ++ unslashed run))).depth =
          s.state.depth := hdepth.symm
      rw [hgoOn, hobey, hopens, hheld, eq_comm (a := p), and_comm, and_assoc, and_assoc]

theorem finish_ne_tooDeep (k : Stacks) (p : Position) (limit : Nat) :
    k.finish source ≠ .error (.fault ⟨p, .tooDeep limit⟩) := by
  rw [Stacks.finish]
  split
  · rw [Stop.ofFault]
    split <;> simp
  · split <;> simp

/-- A turn that fails ends the run. -/
theorem parse_of_turn_error {s : Scanner} {stop : Stop} (h : Reached source s)
    (hturn : turn source s = .error stop) : parse source = .error stop := by
  have hpos : s.pos < size source := by
    by_contra hpos
    obtain ⟨n, pending, before, after, hfollows⟩ := h.follows
    have hcut : Text.cut Tag.braces after = none := by rw [hfollows.after_eq_nil hpos]; rfl
    obtain ⟨k, hlast, -⟩ := turn_of_text hfollows hcut
    rw [hturn] at hlast
    cases hlast
  have hrun : run source s = .error stop := by rw [run, if_pos hpos, hturn]
  rw [parse, run_of_reached h, hrun]
  rfl

/-- The limit is reported when a well-formed opening tag is read at the limit. -/
theorem parse_tooDeep_iff {p : Position} {limit : Nat} :
    parse source = .error (.fault ⟨p, .tooDeep limit⟩) ↔
      limit = maxNesting ∧ ∃ s opened, Reached source s ∧ s.state.depth = maxNesting ∧
        OpensAt source s opened ∧ Position.ofOffset source opened = some p := by
  have hturns : parse source = .error (.fault ⟨p, .tooDeep limit⟩) ↔
      ∃ s, Reached source s ∧ turn source s = .error (.fault ⟨p, .tooDeep limit⟩) := by
    constructor
    · intro hparse
      cases hrun : run source {} with
      | error stop =>
        rw [parse, hrun] at hparse
        cases hparse
        obtain ⟨s, hreached, -, hturn⟩ := exists_turn_error .start hrun
        exact ⟨s, hreached, hturn⟩
      | ok k =>
        rw [parse, hrun] at hparse
        exact absurd hparse (finish_ne_tooDeep k p limit)
    · rintro ⟨s, hreached, hturn⟩
      exact parse_of_turn_error hreached hturn
  rw [hturns]
  constructor
  · rintro ⟨s, hreached, hturn⟩
    obtain ⟨n, pending, before, after, hfollows⟩ := hreached.follows
    obtain ⟨hlimit, hdepth, opened, hopens, hposition⟩ := (turn_tooDeep_iff hfollows).mp hturn
    exact ⟨hlimit, s, opened, hreached, Nat.le_antisymm hreached.intact.depth_le hdepth, hopens,
      hposition⟩
  · rintro ⟨hlimit, s, opened, hreached, hdepth, hopens, hposition⟩
    obtain ⟨n, pending, before, after, hfollows⟩ := hreached.follows
    exact ⟨s, hreached, (turn_tooDeep_iff hfollows).mpr
      ⟨hlimit, Nat.le_of_eq hdepth.symm, opened, hopens, hposition⟩⟩

theorem Reached.obeyed {s : Scanner} {n m : Nesting} {t : Tag} {before after rest : List Char}
    (h : Reached source s) (hfollows : Follows source s n [] before (Tag.braces ++ after))
    (hread : Tag.read after = .ok (t, rest))
    (happly : n.apply (Position.start.after before) t = .ok m) :
    ∃ s', Reached source s' ∧ Follows source s' m [] (before ++ t.lexeme) rest := by
  have hcut : Text.cut Tag.braces (Tag.braces ++ after) = some ([], after) := by
    simp [Text.cut, Text.behind?, Tag.braces]
  have hheld : trimmedBy s.stripNext t.trimLeft ([] ++ unslashed []) = [] :=
    Segment.trimmedBy_nil _ _
  obtain ⟨s', hturn, hfollows', -⟩ := turn_of_obeyed hfollows hcut (by decide) hread
    (by rwa [hheld, Nesting.hold_nil])
  have hpos : s.pos < size source := by
    rw [hfollows.source_eq, hfollows.pos_eq, size_append]
    exact Nat.lt_add_of_pos_right (Text.size_pos (by simp [Tag.braces]))
  rw [List.append_nil] at hfollows'
  exact ⟨s', .again h hpos hturn, hfollows'⟩

/-- A tag that goes on with a chained inverse. -/
def linkTag : Tag := ⟨false, .plain "else if b".toList, false⟩

/-- An opening tag and as many chained inverses. -/
def chainSource : Nat → List Char
  | 0 => "\x7b\x7b#if a\x7d\x7d".toList
  | count + 1 => chainSource count ++ linkTag.lexeme

theorem exists_parse_link : ∃ o, Opening.parse " if b".toList = .ok o := ⟨_, rfl⟩

/-- A link is read wherever the innermost block has no inverse yet, and leaves such a block. -/
theorem apply_linkTag {n : Nesting} {b : OpenBlock} {blocks : List OpenBlock}
    (hblocks : n.blocks = b :: blocks) (hmain : b.main = none) (position : Position) :
    ∃ m, n.apply position linkTag = .ok m ∧
      m.blocks.countP (·.chained) = n.blocks.countP (·.chained) + 1 ∧
      ∃ b blocks, m.blocks = b :: blocks ∧ b.main = none := by
  obtain ⟨opening, hopening⟩ := exists_parse_link
  have hinvert := Nesting.invert_eq_ok.mpr ⟨b, blocks, hblocks, hmain, rfl⟩
  refine ⟨_, Nesting.apply_eq_ok.mpr ⟨.chain " if b".toList, rfl,
    Nesting.step_chain_eq_ok.mpr ⟨_, opening, hinvert, hopening, rfl⟩⟩, ?_, _, _, rfl, rfl⟩
  rw [hblocks]
  simp [Nesting.enter, List.countP_cons]

theorem exists_reached_chain (count : Nat) (more : List Char) :
    ∃ s n, Reached (chainSource count ++ more) s ∧
      Follows (chainSource count ++ more) s n [] (chainSource count) more ∧
      n.blocks.countP (·.chained) = count ∧ ∃ b blocks, n.blocks = b :: blocks ∧ b.main = none := by
  induction count generalizing more with
  | zero =>
    obtain ⟨o, ho⟩ : ∃ o, Directive.ofTag ⟨false, .plain "#if a".toList, false⟩ =
        .ok (.opening o) := ⟨_, rfl⟩
    have hread : Tag.read ("#if a\x7d\x7d".toList ++ more) =
        .ok (⟨false, .plain "#if a".toList, false⟩, more) := rfl
    have happly : Nesting.apply {} .start _ = .ok _ := Nesting.apply_eq_ok.mpr
      ⟨_, ho, Nesting.step_opening_eq_ok.mpr ⟨by decide, rfl⟩⟩
    obtain ⟨s, hreached, hfollows⟩ := Reached.start.obeyed
      (follows_start ("\x7b\x7b#if a\x7d\x7d".toList ++ more)) hread happly
    exact ⟨s, _, hreached, hfollows, rfl, _, _, rfl, rfl⟩
  | succ count ih =>
    obtain ⟨s, n, hreached, hfollows, hcount, b, blocks, hblocks, hmain⟩ :=
      ih (linkTag.lexeme ++ more)
    obtain ⟨m, happly, hchained, hnext⟩ := apply_linkTag hblocks hmain
      (Position.start.after (chainSource count))
    have hread : Tag.read ("else if b\x7d\x7d".toList ++ more) = .ok (linkTag, more) := rfl
    obtain ⟨s', hreached', hfollows'⟩ := hreached.obeyed hfollows hread happly
    rw [← List.append_assoc] at hreached' hfollows'
    exact ⟨s', m, hreached', hfollows', hchained.trans (congrArg (· + 1) hcount), hnext⟩

structure Safe (source : List Char) (s : Scanner) : Prop where
  sound : s.state.Sound
  /-- The place is between two characters of the source, or at one of its ends. -/
  boundary : (from? source s.pos).isSome = true
  /-- The turn finds every entry and every slice that it takes for granted. -/
  turn_ne_crash : turn source s ≠ .error .crash
  onward : ∀ s', turn source s = .ok (.again s') → s.pos < s'.pos

theorem Reached.safe {s : Scanner} (h : Reached source s) : Safe source s where
  sound := h.intact.sound
  boundary := by
    obtain ⟨n, pending, before, after, hfollows⟩ := h.follows
    rw [hfollows.source_eq, hfollows.pos_eq, Text.from?_append]
    rfl
  turn_ne_crash hturn := by
    obtain ⟨e, he⟩ := turn_error h hturn
    cases he
  onward _ := turn_pos h

theorem exists_reached_countP_chained (count : Nat) :
    ∃ source s, Reached source s ∧ s.state.frames.countP (·.chained) = count := by
  obtain ⟨s, n, hreached, hfollows, hcount, -⟩ := exists_reached_chain count []
  exact ⟨_, s, hreached, (hfollows.holds.countP_chained id).trans hcount⟩

/-- Every place that the loop comes to is safe, so that it reads what reading the segments reads
and leaves no frame behind. Only opening tags meet the limit, and chains are never too long. -/
theorem loop_safe :
    (∀ source s, Reached source s → Safe source s) ∧
    (∀ source : String, parse source.toList = (Program.parse source).mapError .fault) ∧
    (∀ source k, run source {} = .ok k → k.Sound ∧
      ∀ p, k.finish source = .ok p → k.frames = [] ∧ k.nodes = [p.body.reverse]) ∧
    (∀ source p limit, parse source = .error (.fault ⟨p, .tooDeep limit⟩) ↔
      limit = maxNesting ∧ ∃ s opened, Reached source s ∧ s.state.depth = maxNesting ∧
        OpensAt source s opened ∧ Position.ofOffset source opened = some p) ∧
    ∀ count, ∃ source s, Reached source s ∧ s.state.frames.countP (·.chained) = count := by
  refine ⟨fun _ _ => Reached.safe, fun source => parse_eq source.toList, fun source k hrun => ?_,
    fun _ _ _ => parse_tooDeep_iff, exists_reached_countP_chained⟩
  exact ⟨(intact_run Stacks.intact_empty hrun).sound, fun p => finished hrun⟩

/-- A block and a link of it, behind a character of two bytes. -/
def accentedLink : List Char :=
  "é\x7b\x7b#if a\x7d\x7dx\x7b\x7belse if b\x7d\x7d".toList

theorem loop_safe_accentedLink :
    ∃ s, Reached accentedLink s ∧ s.state.frames.map (·.chained) = [true, false] ∧ s.pos = 25 ∧
      Safe accentedLink s := by
  have hopened : Reached accentedLink _ := Reached.start.again (by decide) rfl
  have hlinked : Reached accentedLink _ := hopened.again (by decide) rfl
  exact ⟨_, hlinked, rfl, rfl, loop_safe.1 _ _ hlinked⟩

end Scanner
end Stencil.Handlebars
