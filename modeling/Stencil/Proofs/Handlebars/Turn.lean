import Stencil.Proofs.Handlebars.Pending

/-!
# Turns of the loop

Between two turns a scanner stands between two characters of the source. Its
stacks hold what has been read up to the last tag, with a text on top that has
not been followed by a tag yet; reading the rest from there gives the outcome of
the whole. A turn ends with that outcome, or goes on to a later place with the
same outcome.
-/

namespace Stencil.Handlebars

open Text (Position from? upTo? slice? find? scanUntil size size_append)
open Segment (backslashes consText scan tidy trimmedBy unslashed)

theorem backslashes_eq (s : List Char) :
    (['\\'].isSuffixOf s && !(['\\', '\\'].isSuffixOf s)) = decide (backslashes s = 1) := by
  rw [backslashes, List.isSuffixOf, List.isSuffixOf]
  rcases s.reverse with _ | ⟨c, _ | ⟨d, s⟩⟩
  · rfl
  · rcases eq_or_ne '\\' c with rfl | hc
    · rfl
    · simp [List.isPrefixOf, hc, hc.symm]
  · rcases eq_or_ne '\\' c with rfl | hc
    · rcases eq_or_ne '\\' d with rfl | hd
      · simp [List.isPrefixOf]
      · simp [List.isPrefixOf, hd, hd.symm]
    · simp [List.isPrefixOf, hc, hc.symm]

theorem unslashed_eq (s : List Char) :
    (if s.getLast? = some '\\' then s.dropLast else s) = unslashed s := by
  rw [unslashed]
  split
  · next hlast =>
    obtain ⟨front, rfl⟩ := List.getLast?_eq_some_iff.mp hlast
    rw [if_neg]
    simp [backslashes]
  · next hlast => rw [if_pos (Segment.backslashes_eq_zero hlast)]

namespace Scanner

section
variable (before : List Char) {after run rest : List Char}

theorem ahead_of_cut_none (h : Text.cut Tag.braces after = none) :
    ahead (before ++ after) (size before) = .ok (.text after) := by
  rw [ahead, Text.from?_append, need_some, Except.ok_bind, Text.find?_eq, h]
  rfl

theorem ahead_of_cut (h : Text.cut Tag.braces after = some (run, rest)) :
    ahead (before ++ after) (size before) =
      .ok (if backslashes run = 1 then .escaped run (size (before ++ run))
        else .tag run (size (before ++ run))) := by
  have happ := Text.append_of_cut h
  have hslice : slice? (before ++ after) (size before) (size before + size run) = some run := by
    rw [happ, List.append_assoc]
    exact Text.slice?_append _ _ _
  rw [ahead, Text.from?_append, need_some, Except.ok_bind, Text.find?_eq, h]
  simp only [Option.map_some, hslice, need_some, Except.ok_bind, backslashes_eq, size_append,
    decide_eq_true_eq]
  split <;> rfl

end

/-- A scanner between two characters: its stacks hold the nesting with the `pending` text that no
tag has followed yet. -/
structure Follows (source : List Char) (s : Scanner) (n : Nesting)
    (pending before after : List Char) : Prop where
  source_eq : source = before ++ after
  pos_eq : s.pos = size before
  holds : Holds source s.state (n.hold pending)
  ready : n.Ready
  stripped : pending ≠ [] → s.stripNext = false

theorem Follows.after_eq_nil {source : List Char} {s : Scanner} {n : Nesting}
    {pending before after : List Char} (h : Follows source s n pending before after)
    (hpos : ¬ s.pos < size source) : after = [] := by
  by_contra hne
  have hsize := Text.size_pos hne
  rw [h.source_eq, h.pos_eq, size_append] at hpos
  omega

theorem follows_start (source : List Char) : Follows source {} {} [] [] source where
  source_eq := rfl
  pos_eq := rfl
  holds := by rw [Nesting.hold_nil]; exact .empty source
  ready := nofun
  stripped := nofun

/-- What the rest of the source makes of the nesting. -/
def outcome (n : Nesting) (strip : Bool) (pending before after : List Char) :
    Except SyntaxError Nesting :=
  n.run (tidy strip (consText pending (scan (Position.start.after before) after)))

theorem holds_addText {source : List Char} {k : Stacks} {n : Nesting} {pending : List Char}
    (hready : n.Ready) (h : Holds source k (n.hold pending)) {strip : Bool}
    (hstrip : pending ≠ [] → strip = false) (run : List Char) :
    ∃ k', k.addText run strip = some k' ∧
      Holds source k' (n.hold (trimmedBy strip false (pending ++ run))) := by
  obtain ⟨k', hk, hholds⟩ := h.onTop (fun body => some (appendText run strip body)) rfl
  refine ⟨k', hk, ?_⟩
  rw [Segment.trimmedBy_pending hstrip]
  have hbody : appendText run strip (n.hold pending).current =
      appendText (pending ++ trimmedBy strip false run) false n.current := by
    rw [appendText_strip, Nesting.hold, appendText_appendText hready]
  rw [hbody] at hholds
  exact hholds

theorem holds_trimTrailing {source : List Char} {k : Stacks} {n : Nesting} {left : Bool}
    (hready : n.Ready) {pending : List Char}
    (h : Holds source k (n.hold (trimmedBy left false pending))) :
    ∃ k', k.onTop trimTrailing = some k' ∧
      Holds source k' (n.hold (trimmedBy left true pending)) :=
  h.onTop trimTrailing (trimTrailing_appendText hready _)

/-- What a turn does when it has come to a tag. -/
def goOn (source run before : List Char) (t : Tag) (k : Stacks) : Except Stop Turn :=
  (k.obey source (size (before ++ run)) t).map fun k =>
    .again ⟨k, t.trimRight, size (before ++ run ++ t.lexeme)⟩

/-- Braces behind a single backslash: what is taken for text goes up to the braces that close the
tag, or to the end. -/
theorem exists_literal {after run rest : List Char}
    (hcut : Text.cut Tag.braces after = some (run, rest)) (hslash : backslashes run = 1)
    (front : List Char) :
    ∃ inner rest', rest = inner ++ rest' ∧
      (scanUntil (front ++ rest) (size front) Tag.closingBraces).elim (size (front ++ rest))
          (· + 2) = size front + size inner ∧
      ∀ position, scan position after =
        consText (run.dropLast ++ (Tag.braces ++ inner))
          (scan ((position.after run).after (Tag.braces ++ inner)) rest') := by
  rw [Text.scanUntil_append Tag.isMark_closingBraces]
  cases hclose : Text.cutOutside Tag.closingBraces .outside rest with
  | none =>
    refine ⟨rest, [], (List.append_nil rest).symm, size_append front rest, fun position => ?_⟩
    rw [Segment.scan_of_unclosed position hcut hslash hclose, Segment.scan_nil, List.append_assoc]
  | some found =>
    obtain ⟨body, rest'⟩ := found
    have hrest := Text.append_of_cutOutside hclose
    refine ⟨body ++ Tag.closingBraces, rest', hrest, ?_, fun position => ?_⟩
    · change size front + size body + 2 = _
      rw [size_append, ← Nat.add_assoc]
      rfl
    · rw [Segment.scan_of_shielded position hcut hslash hclose, inBraces, List.append_assoc]

section
variable {source : List Char} {s : Scanner} {n : Nesting}
  {pending before after run rest : List Char}
variable (h : Follows source s n pending before after)
include h

theorem turn_of_text (hcut : Text.cut Tag.braces after = none) :
    ∃ k, turn source s = .ok (.last k) ∧
      Holds source k (n.hold (trimmedBy s.stripNext false (pending ++ after))) := by
  obtain ⟨k, hk, hholds⟩ := holds_addText h.ready h.holds h.stripped after
  refine ⟨k, ?_, hholds⟩
  rw [turn, h.source_eq, h.pos_eq, ahead_of_cut_none _ hcut]
  simp only [Except.ok_bind, hk]
  rfl

/-- The outcome of a source that ends in text. -/
theorem outcome_of_text (hcut : Text.cut Tag.braces after = none) :
    outcome n s.stripNext pending before after =
      .ok (n.hold (trimmedBy s.stripNext false (pending ++ after))) := by
  rw [outcome, Segment.scan_of_cut_none _ hcut, Segment.consText_consText,
    Segment.tidy_consText_nil, Nesting.run_consText_hold h.ready _ (by simp)]
  rfl

section
variable (hcut : Text.cut Tag.braces after = some (run, rest))
include hcut

theorem source_of_cut : source = before ++ run ++ (Tag.braces ++ rest) := by
  rw [h.source_eq, Text.append_of_cut hcut]
  simp

theorem turn_of_escaped (hslash : backslashes run = 1) :
    ∃ s' pending' before' rest', turn source s = .ok (.again s') ∧
      Follows source s' n pending' before' rest' ∧ s.pos < s'.pos ∧
      outcome n s.stripNext pending before after =
        outcome n s'.stripNext pending' before' rest' := by
  have hsource := source_of_cut h hcut
  obtain ⟨inner, rest', hrest, hstop, hscan⟩ :=
    exists_literal hcut hslash (before ++ run ++ Tag.braces)
  obtain ⟨front, rfl⟩ : ∃ front, run = front ++ ['\\'] := by
    apply List.getLast?_eq_some_iff.mp
    by_contra hlast
    rw [Segment.backslashes_eq_zero hlast] at hslash
    cases hslash
  rw [List.dropLast_concat] at hscan
  have hkept : upTo? (front ++ ['\\']) (size (front ++ ['\\']) - 1) = some front := by
    rw [size_append]
    exact Text.upTo?_append front ['\\']
  have hopened : size (before ++ (front ++ ['\\'])) + 2 =
      size (before ++ (front ++ ['\\']) ++ Tag.braces) := (size_append _ Tag.braces).symm
  have hliteral : slice? source (size (before ++ (front ++ ['\\'])))
      (size (before ++ (front ++ ['\\']) ++ Tag.braces) + size inner) =
        some (Tag.braces ++ inner) := by
    rw [hsource, hrest, size_append _ Tag.braces, Nat.add_assoc, ← size_append Tag.braces,
      ← List.append_assoc Tag.braces]
    exact Text.slice?_append _ _ _
  have hbehind : source = before ++ (front ++ ['\\']) ++ Tag.braces ++ rest := by
    rw [hsource]
    simp
  rw [← hbehind] at hstop
  obtain ⟨k, hk, hholds⟩ := holds_addText h.ready h.holds h.stripped front
  obtain ⟨k', hk', hholds'⟩ :=
    holds_addText h.ready hholds (fun _ => rfl) (Tag.braces ++ inner)
  have hstart : before ++ (front ++ ['\\']) ++ (Tag.braces ++ inner) =
      before ++ (front ++ ['\\']) ++ Tag.braces ++ inner := (List.append_assoc _ _ _).symm
  have hfollows : Follows source
      ⟨k', false, size (before ++ (front ++ ['\\']) ++ Tag.braces) + size inner⟩ n
      (trimmedBy s.stripNext false (pending ++ front) ++ (Tag.braces ++ inner))
      (before ++ (front ++ ['\\']) ++ (Tag.braces ++ inner)) rest' := {
    source_eq := by rw [hstart, List.append_assoc _ inner, ← hrest, ← hbehind]
    pos_eq := by rw [hstart, size_append _ inner]
    holds := hholds'
    ready := h.ready
    stripped := fun _ => rfl }
  refine ⟨_, _, _, _, ?_, hfollows, ?_, ?_⟩
  · rw [turn, h.pos_eq, h.source_eq, ahead_of_cut _ hcut, if_pos hslash, ← h.source_eq]
    simp only [Except.ok_bind, hkept, hk, need_some, hopened, hstop, hliteral, hk']
  · rw [h.pos_eq, hfollows.pos_eq, size_append, size_append before, Nat.add_assoc]
    exact Nat.lt_add_of_pos_right (Nat.add_pos_right _ (Text.size_pos (by simp [Tag.braces])))
  · have hposition : ((Position.start.after before).after (front ++ ['\\'])).after
        (Tag.braces ++ inner) =
          Position.start.after (before ++ (front ++ ['\\']) ++ (Tag.braces ++ inner)) := by
      simp only [Position.after_append]
    rw [outcome, hscan, Segment.consText_consText, ← List.append_assoc pending,
      Segment.tidy_consText_of_first (c := '{') rfl (by decide), outcome, hposition]

/-- Where the tag behind the next braces stands. -/
theorem position_of_cut :
    Position.ofOffset source (size (before ++ run)) =
      some ((Position.start.after before).after run) := by
  rw [source_of_cut h hcut, Text.Position.ofOffset_append, Position.after_append]

section
variable (hslash : backslashes run ≠ 1)
include hslash

theorem turn_of_broken {fault : Fault} (hread : Tag.read rest = .error fault) :
    turn source s = .error (.fault ⟨(Position.start.after before).after run, fault⟩) ∧
      outcome n s.stripNext pending before after =
        .error ⟨(Position.start.after before).after run, fault⟩ := by
  obtain ⟨k, hk, -⟩ := holds_addText h.ready h.holds h.stripped (unslashed run)
  have hbroken := Tag.readAt_append (before ++ run) rest
  rw [hread, ← source_of_cut h hcut, Position.after_append] at hbroken
  refine ⟨?_, ?_⟩
  · rw [turn, h.pos_eq, h.source_eq, ahead_of_cut _ hcut, if_neg hslash, ← h.source_eq]
    simp only [Except.ok_bind, unslashed_eq, hk, need_some, hbroken]
    rfl
  · rw [outcome, Segment.scan_of_slashed _ hcut hslash, Segment.scanTag_of_read_error hread,
      Segment.consText_consText, Segment.tidy_consText_broken,
      Nesting.run_consText_hold h.ready _ (by simp [Segment.isText])]
    rfl

/-- Reading a tag, and what is on the stacks when it is obeyed. -/
theorem turn_of_tag {t : Tag} {rest' : List Char} (hread : Tag.read rest = .ok (t, rest')) :
    let text := trimmedBy s.stripNext t.trimLeft (pending ++ unslashed run)
    ∃ k, Holds source k (n.hold text) ∧ turn source s = goOn source run before t k ∧
      outcome n s.stripNext pending before after = (n.hold text).run
        (.tag ((Position.start.after before).after run) t ::
          tidy t.trimRight (scan (Position.start.after (before ++ run ++ t.lexeme)) rest')) := by
  obtain ⟨k, hk, hholds⟩ := holds_addText h.ready h.holds h.stripped (unslashed run)
  have hat : Tag.readAt source (size (before ++ run)) =
      .ok (t, size (before ++ run ++ t.lexeme)) := by
    rw [source_of_cut h hcut, Tag.readAt_append, hread]
    exact congrArg (fun stop => Except.ok (t, stop)) (size_append _ _).symm
  have hposition : ((Position.start.after before).after run).after t.lexeme =
      Position.start.after (before ++ run ++ t.lexeme) := by
    simp only [Position.after_append]
  have houtcome : outcome n s.stripNext pending before after =
      (n.hold (trimmedBy s.stripNext t.trimLeft (pending ++ unslashed run))).run
        (.tag ((Position.start.after before).after run) t ::
          tidy t.trimRight (scan (Position.start.after (before ++ run ++ t.lexeme)) rest')) := by
    rw [outcome, Segment.scan_of_slashed _ hcut hslash, Segment.scanTag_of_read hread,
      Segment.consText_consText, Segment.tidy_consText_tag, hposition,
      Nesting.run_consText_hold h.ready _ (by simp [Segment.isText])]
  have hturn : turn source s =
      if t.trimLeft then need (k.onTop trimTrailing) >>= fun k' => goOn source run before t k'
      else goOn source run before t k := by
    rw [turn, h.pos_eq, h.source_eq, ahead_of_cut _ hcut, if_neg hslash, ← h.source_eq]
    simp only [Except.ok_bind, unslashed_eq, hk, need_some, hat, Except.bind_ok_eq_map]
    rfl
  cases hleft : t.trimLeft with
  | false =>
    rw [hleft] at houtcome
    exact ⟨k, hholds, by rw [hturn, hleft]; rfl, houtcome⟩
  | true =>
    rw [hleft] at houtcome
    obtain ⟨k', hk', hholds'⟩ := holds_trimTrailing h.ready hholds
    refine ⟨k', hholds', ?_, houtcome⟩
    rw [hturn, hleft, if_pos rfl, hk', need_some, Except.ok_bind]

/-- A tag that is obeyed leaves the scanner behind it. -/
theorem turn_of_obeyed {t : Tag} {rest' : List Char} (hread : Tag.read rest = .ok (t, rest'))
    {m : Nesting}
    (happly : (n.hold (trimmedBy s.stripNext t.trimLeft (pending ++ unslashed run))).apply
      ((Position.start.after before).after run) t = .ok m) :
    ∃ s', turn source s = .ok (.again s') ∧
      Follows source s' m [] (before ++ run ++ t.lexeme) rest' ∧ s.pos < s'.pos ∧
      outcome n s.stripNext pending before after =
        outcome m s'.stripNext [] (before ++ run ++ t.lexeme) rest' := by
  obtain ⟨k, hholds, hturn, houtcome⟩ := turn_of_tag h hcut hslash hread
  have hobey := agrees_obey (position_of_cut h hcut) hholds t
  rw [happly] at hobey
  obtain ⟨k', hk, hholds'⟩ := hobey.exists_ok
  rw [goOn, hk] at hturn
  rw [Nesting.run, happly] at houtcome
  have hfollows : Follows source ⟨k', t.trimRight, size (before ++ run ++ t.lexeme)⟩ m []
      (before ++ run ++ t.lexeme) rest' := {
    source_eq := by
      rw [source_of_cut h hcut, Tag.append_of_read hread, List.append_assoc _ t.lexeme]
    pos_eq := rfl
    holds := by rwa [Nesting.hold_nil]
    ready := Nesting.ready_apply happly
    stripped := nofun }
  refine ⟨_, hturn, hfollows, ?_, houtcome⟩
  rw [h.pos_eq, hfollows.pos_eq, size_append, size_append before, Nat.add_assoc]
  exact Nat.lt_add_of_pos_right
    (Nat.add_pos_right _ (Text.size_pos (by simp [Tag.lexeme, Tag.braces])))

end

end

/-- How a turn from `pos` may end if the rest of the source has an expected outcome. -/
inductive Answers (source : List Char) (expected : Except SyntaxError Nesting) (pos : Nat) :
    Except Stop Turn → Prop
  | fault (e : SyntaxError) (h : expected = .error e) :
      Answers source expected pos (.error (.fault e))
  | last (k : Stacks) (n : Nesting) (hholds : Holds source k n) (h : expected = .ok n) :
      Answers source expected pos (.ok (.last k))
  | again {s : Scanner} {n : Nesting} {pending before after : List Char}
      (hfollows : Follows source s n pending before after) (hpos : pos < s.pos)
      (h : expected = outcome n s.stripNext pending before after) :
      Answers source expected pos (.ok (.again s))

theorem turn_answers :
    Answers source (outcome n s.stripNext pending before after) s.pos (turn source s) := by
  cases hcut : Text.cut Tag.braces after with
  | none =>
    obtain ⟨k, hturn, hholds⟩ := turn_of_text h hcut
    rw [hturn]
    exact .last k _ hholds (outcome_of_text h hcut)
  | some found =>
    obtain ⟨run, rest⟩ := found
    by_cases hslash : backslashes run = 1
    · obtain ⟨s', _, _, _, hturn, hfollows, hpos, houtcome⟩ := turn_of_escaped h hcut hslash
      rw [hturn]
      exact .again hfollows hpos houtcome
    cases hread : Tag.read rest with
    | error fault =>
      obtain ⟨hturn, houtcome⟩ := turn_of_broken h hcut hslash hread
      rw [hturn]
      exact .fault _ houtcome
    | ok found =>
      obtain ⟨t, rest'⟩ := found
      cases happly : (n.hold (trimmedBy s.stripNext t.trimLeft (pending ++ unslashed run))).apply
          ((Position.start.after before).after run) t with
      | error e =>
        obtain ⟨k, hholds, hturn, houtcome⟩ := turn_of_tag h hcut hslash hread
        have hobey := agrees_obey (position_of_cut h hcut) hholds t
        rw [happly] at hobey
        rw [hturn, goOn, hobey.eq_error]
        rw [Nesting.run, happly] at houtcome
        exact .fault e houtcome
      | ok m =>
        obtain ⟨s', hturn, hfollows, hpos, houtcome⟩ := turn_of_obeyed h hcut hslash hread happly
        rw [hturn]
        exact .again hfollows hpos houtcome

end

/-- The loop has the outcome that the segments have. -/
theorem run_agrees {source : List Char} {s : Scanner} {n : Nesting}
    {pending before after : List Char} (h : Follows source s n pending before after) :
    Agrees source (run source s) (outcome n s.stripNext pending before after) := by
  have hanswers := turn_answers h
  fun_induction run source s generalizing n pending before after with
  | case1 s hpos e hturn =>
    rw [hturn] at hanswers
    cases hanswers with
    | fault e houtcome =>
      rw [houtcome]
      exact .fault e
  | case2 s hpos k hturn =>
    rw [hturn] at hanswers
    cases hanswers with
    | last k m hholds houtcome =>
      rw [houtcome]
      exact .ok hholds
  | case3 s hpos s' hturn hlater ih =>
    rw [hturn] at hanswers
    cases hanswers with
    | again hfollows _ houtcome =>
      rw [houtcome]
      exact ih hfollows (turn_answers hfollows)
  | case4 s hpos s' hturn hlater =>
    rw [hturn] at hanswers
    cases hanswers with
    | again hfollows hpos _ => exact absurd hpos hlater
  | case5 s hpos =>
    have hafter := h.after_eq_nil hpos
    have hcut : Text.cut Tag.braces after = none := by rw [hafter]; rfl
    rw [outcome_of_text h hcut, hafter, Segment.trimmedBy_pending h.stripped,
      Segment.trimmedBy_nil, List.append_nil]
    exact .ok h.holds

/-- Reading in place gives the program, or the error, that reading the segments gives. -/
theorem parse_eq (source : List Char) :
    parse source = (Program.ofText source).mapError .fault := by
  have hrun := run_agrees (follows_start source)
  have houtcome : outcome {} ({} : Scanner).stripNext [] [] source =
      Nesting.run {} (Segment.ofSource source) := rfl
  rw [houtcome] at hrun
  rw [parse, Program.ofText]
  cases hn : Nesting.run {} (Segment.ofSource source) with
  | error e =>
    rw [hn] at hrun
    rw [hrun.eq_error]
    rfl
  | ok n =>
    rw [hn] at hrun
    obtain ⟨k, hk, hholds⟩ := hrun.exists_ok
    rw [hk]
    exact hholds.finish_eq

end Scanner
end Stencil.Handlebars
