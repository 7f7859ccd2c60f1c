import Mathlib.Data.List.Forall2
import Stencil.Proofs.Handlebars.RoundTrip

/-!
# Templates one after the other

A template that has been read to its end leaves nothing behind that could change
how a second one is read: every tag ends at a mark of its own, and every block is
closed. Only the texts that meet at the seam become one text. Tildes and
backslashes look beyond the seam, and a brace at the end could become the first
half of an opening mark, so these are left out.
-/

namespace Stencil.Handlebars

open Text (Position)

namespace Tag

theorem dropTilde_append_right {s : List Char} (h : s ≠ []) (more : List Char) :
    dropTilde (s ++ more) = ((dropTilde s).1, (dropTilde s).2 ++ more) := by
  obtain ⟨c, s, rfl⟩ := List.exists_cons_of_ne_nil h
  by_cases hc : c = '~' <;> simp [dropTilde, hc]

theorem cutDashes_append_right {s body rest : List Char} {right : Bool}
    (h : cutDashes s = some (body, right, rest)) (more : List Char) :
    cutDashes (s ++ more) = some (body, right, rest ++ more) := by
  induction s generalizing body with
  | nil => cases h
  | cons c s ih =>
    rw [cutDashes] at h
    rw [List.cons_append, cutDashes, ← List.cons_append]
    split at h
    · next hmark =>
      cases h
      rw [Text.behind?_append (Text.length_le_of_behind? hmark), hmark]
      rfl
    · next hmark =>
      -- Both marks are looked for, so the text has to be long enough for the longer one.
      have hlength : 5 ≤ (c :: s).length := by
        split at h
        · next hlong => exact Text.length_le_of_behind? hlong
        · obtain ⟨⟨front, found, back⟩, hcut, -⟩ := Option.map_eq_some_iff.mp h
          have := congrArg List.length (append_of_cutDashes hcut)
          simp only [closingBraces, List.length_append, List.length_cons] at this ⊢
          omega
      have hshort : Text.behind? ['-', '-', '}', '}'] (c :: s ++ more) = none := by
        rw [Text.behind?_append (by simpa using Nat.le_of_succ_le hlength), hmark]
        rfl
      rw [hshort, Text.behind?_append (by simpa using hlength)]
      split at h
      · next hlong =>
        cases h
        simp [hlong]
      · next hlong =>
        obtain ⟨⟨front, found, back⟩, hcut, hpair⟩ := Option.map_eq_some_iff.mp h
        cases hpair
        simp [hlong, ih hcut]

theorem exists_cons_cons {s : List Char} (h : 2 ≤ s.length) : ∃ c d t, s = c :: d :: t := by
  rcases s with _ | ⟨c, _ | ⟨d, t⟩⟩
  · cases h
  · simp at h
  · exact ⟨c, d, t, rfl⟩

theorem readForm_append_right {s rest : List Char} {form : Form} {right : Bool}
    (h : readForm s = .ok (form, right, rest)) (more : List Char) :
    readForm (s ++ more) = .ok (form, right, rest ++ more) := by
  -- The form is told by the first characters, and these lie before the mark that was found.
  unfold readForm at h
  split at h
  · cases h
  · split at h
    · cases h
    · next hcut =>
      cases h
      simp only [List.cons_append, readForm, cutDashes_append_right hcut more]
  · next s hdashes =>
    split at h
    · cases h
    · next body after hcut =>
      cases h
      have hmore := Text.cut_append_right hcut more
      obtain ⟨c, d, s, rfl⟩ := exists_cons_cons (Text.length_le_of_cut hcut)
      unfold readForm
      split <;> simp_all
  · next s hbrace =>
    split at h
    · cases h
    · next body after hcut =>
      split at h
      · cases h
      · next hclose =>
        cases h
        have hmore := Text.cutOutside_append_right hcut more
        have hafter : after ≠ [] := by
          rintro rfl
          cases hclose
        have hend : Text.behind? closingBraces (dropTilde (after ++ more)).2 =
            some (rest ++ more) := by
          rw [dropTilde_append_right hafter,
            Text.behind?_append (Text.length_le_of_behind? hclose), hclose]
          rfl
        obtain ⟨c, s, rfl⟩ := List.exists_cons_of_ne_nil
          (List.ne_nil_of_length_pos (Text.length_le_of_cutOutside hcut))
        unfold readForm
        split <;> simp_all [dropTilde_append_right]
  · next hraw hdashes hcomment htriple =>
    split at h
    · cases h
    · next body after hcut =>
      cases h
      have hmore := Text.cutOutside_append_right hcut more
      obtain ⟨c, d, s, rfl⟩ := exists_cons_cons (Text.length_le_of_cutOutside hcut)
      unfold readForm
      split <;> simp_all

/-- A text behind a tag does not change how it is read. -/
theorem read_append_right {s rest : List Char} {t : Tag} (h : read s = .ok (t, rest))
    (more : List Char) : read (s ++ more) = .ok (t, rest ++ more) := by
  have hs : s ≠ [] := by
    rintro rfl
    cases h
  unfold read at h ⊢
  rw [dropTilde_append_right hs]
  split at h
  · cases h
  · next hform =>
    cases h
    rw [readForm_append_right hform]

theorem plain_of_read {s rest : List Char} {t : Tag} (h : read s = .ok (t, rest))
    (htilde : '~' ∉ s) : t.trimLeft = false ∧ t.trimRight = false := by
  have hlexeme : '~' ∉ t.lexeme := by
    intro hmem
    have hbraces : '~' ∈ braces ++ s := by
      rw [append_of_read h]
      exact List.mem_append_left _ hmem
    rcases List.mem_append.mp hbraces with hmem | hmem
    · simp [braces] at hmem
    · exact htilde hmem
  obtain ⟨left, form, right⟩ := t
  cases left <;> cases right <;> cases form <;> simp_all [lexeme, formLexeme, tilde]

end Tag

namespace Segment

theorem consText_consText (first second : List Char) (segments : List Segment) :
    consText first (consText second segments) = consText (first ++ second) segments := by
  cases first with
  | nil => rfl
  | cons c first =>
    cases second with
    | nil => rw [List.append_nil]; rfl
    | cons d second =>
      cases segments with
      | nil => rfl
      | cons segment segments => cases segment <;> simp [consText]

def isText : Segment → Bool
  | text _ => true
  | _ => false

/-- The segments that are no texts: the tags, up to one that cannot be read. -/
def marks (segments : List Segment) : List Segment :=
  segments.filter (!·.isText)

@[simp] theorem marks_consText (run : List Char) (segments : List Segment) :
    marks (consText run segments) = marks segments := by
  unfold consText
  split <;> rfl

theorem marks_tidy (left : Bool) (segments : List Segment) :
    marks (tidy left segments) = marks segments := by
  induction segments generalizing left with
  | nil => rfl
  | cons segment segments ih =>
    cases segment with
    | text run =>
      rw [tidy, marks_consText, ih]
      rfl
    | tag position t => exact congrArg (tag position t :: ·) (ih t.trimRight)
    | broken position fault => exact congrArg (broken position fault :: ·) (ih false)

/-- The text between two tags, without the blanks that the tildes on its sides point at. -/
def trimmedBy (left right : Bool) (run : List Char) : List Char :=
  let run := if left then Text.trimStart run else run
  if right then Text.trimEnd run else run

theorem tidy_text (left : Bool) (run : List Char) (segments : List Segment) :
    tidy left (text run :: segments) =
      consText (trimmedBy left (wantsTrim segments) run) (tidy false segments) := rfl

theorem trimmedBy_nil (left right : Bool) : trimmedBy left right [] = [] := by
  cases left <;> cases right <;> rfl

/-- How a text without tildes and backslashes is laid out: tags with text between them, up to the
end or to a tag that cannot be read. Inductions over the scan of such a text follow it. -/

inductive Layout : List Char → Prop
  | text {s : List Char} (hslash : '\\' ∉ s) (hcut : Text.cut Tag.braces s = none) : Layout s
  | broken {s before after : List Char} {fault : Fault}
      (hcut : Text.cut Tag.braces s = some (before, after)) (hslash : backslashes before = 0)
      (hread : Tag.read after = .error fault) : Layout s
  | tag {s before after rest : List Char} {t : Tag}
      (hcut : Text.cut Tag.braces s = some (before, after)) (hslash : backslashes before = 0)
      (hread : Tag.read after = .ok (t, rest))
      (htilde : t.trimLeft = false ∧ t.trimRight = false) (hsuffix : rest <:+ s)
      (hrest : Layout rest) : Layout s

theorem backslashes_of_not_mem {s : List Char} (h : '\\' ∉ s) : backslashes s = 0 :=
  backslashes_eq_zero fun hlast => h (List.mem_of_getLast? hlast)

theorem layout (s : List Char) (htilde : '~' ∉ s) (hslash : '\\' ∉ s) : Layout s := by
  cases hcut : Text.cut Tag.braces s with
  | none => exact .text hslash hcut
  | some pair =>
    obtain ⟨before, after⟩ := pair
    have happ := Text.append_of_cut hcut
    have hbefore : '\\' ∉ before := fun hmem => hslash (by rw [happ]; simp [hmem])
    have hafter : '~' ∉ after := fun hmem => htilde (by rw [happ]; simp [hmem])
    cases hread : Tag.read after with
    | error fault => exact .broken hcut (backslashes_of_not_mem hbefore) hread
    | ok pair =>
      obtain ⟨t, rest⟩ := pair
      have hsuffix : rest <:+ s :=
        ⟨before ++ t.lexeme, by
          rw [happ, List.append_assoc, List.append_assoc, Tag.append_of_read hread]⟩
      have hlength : rest.length < s.length := by
        have := congrArg List.length happ
        have := Tag.length_le_of_read hread
        simp only [Tag.braces, List.length_append, List.length_cons] at *
        omega
      exact .tag hcut (backslashes_of_not_mem hbefore) hread (Tag.plain_of_read hread hafter)
        hsuffix (layout rest (fun hmem => htilde (hsuffix.subset hmem))
          (fun hmem => hslash (hsuffix.subset hmem)))
termination_by s.length

section
variable {s before after rest : List Char} {t : Tag} {fault : Fault} {position : Position}

theorem scanTag_of_read (hread : Tag.read after = .ok (t, rest)) :
    scanTag position after = tag position t :: scan (position.after t.lexeme) rest := by
  rw [scanTag, hread]

theorem scanTag_of_read_error (hread : Tag.read after = .error fault) :
    scanTag position after = [broken position fault] := by
  rw [scanTag, hread]

variable (position)

theorem scan_of_read (hcut : Text.cut Tag.braces s = some (before, after))
    (hslash : backslashes before = 0) (hread : Tag.read after = .ok (t, rest)) :
    scan position s = consText before (tag (position.after before) t ::
      scan ((position.after before).after t.lexeme) rest) := by
  rw [scan_of_cut position hcut hslash, scanTag_of_read hread]

theorem scan_of_read_error (hcut : Text.cut Tag.braces s = some (before, after))
    (hslash : backslashes before = 0) (hread : Tag.read after = .error fault) :
    scan position s = consText before [broken (position.after before) fault] := by
  rw [scan_of_cut position hcut hslash, scanTag_of_read_error hread]

end

theorem tidy_consText_of_firm {run : List Char} {segments : List Segment} (hfirm : Firm segments)
    (h : tidy false segments = segments) :
    tidy false (consText run segments) = consText run segments := by
  cases run with
  | nil => exact h
  | cons c run =>
    rw [tidy_consText (List.cons_ne_nil c run) hfirm, h]
    cases segments with
    | nil => rfl
    | cons segment segments =>
      cases segment with
      | text more => exact absurd rfl (hfirm.2 more segments)
      | tag position t => rfl
      | broken position fault => rfl

/-- Without tildes nothing is trimmed. -/
theorem tidy_scan {s : List Char} (h : Layout s) (position : Position) :
    tidy false (scan position s) = scan position s := by
  induction h generalizing position with
  | text hslash hcut =>
    rw [scan_of_cut_none position hcut]
    exact tidy_consText_of_firm ⟨rfl, by simp⟩ rfl
  | broken hcut hslash hread =>
    rw [scan_of_read_error position hcut hslash hread]
    exact tidy_consText_of_firm ⟨rfl, by simp⟩ rfl
  | tag hcut hslash hread htilde hsuffix hrest ih =>
    rw [scan_of_read position hcut hslash hread]
    exact tidy_consText_of_firm ⟨htilde.1, by simp⟩ (by rw [tidy, htilde.2, ih])

/-- The backslashes in front of a tag do not reach across another character. -/
theorem backslashes_append {s : List Char} (h : s.getLast? ≠ some '\\') (before : List Char) :
    backslashes (s ++ before) = backslashes before := by
  have hs : (s.reverse.takeWhile (· = '\\')).length = 0 := backslashes_eq_zero h
  rw [backslashes, backslashes, List.reverse_append, List.takeWhile_append]
  split
  · next hall => rw [List.length_append, hs, hall, Nat.add_zero]
  · rfl

theorem unslashed_append {s : List Char} (h : s.getLast? ≠ some '\\') (before : List Char) :
    unslashed (s ++ before) = s ++ unslashed before := by
  rw [unslashed, unslashed, backslashes_append h]
  split
  · rfl
  · next hsome =>
    apply List.dropLast_append_of_ne_nil
    rintro rfl
    exact hsome rfl

/-- A text without tags is the beginning of whatever follows it. -/
theorem scan_text_append {s more : List Char} (hcut : Text.cut Tag.braces s = none)
    (hlast : s.getLast? ≠ some '{') (hslash : s.getLast? ≠ some '\\') (position : Position) :
    scan position (s ++ more) = consText s (scan (position.after s) more) := by
  have hsplit := Text.cut_pair_append_left (Text.not_infix_append_take
    (Text.not_infix_of_cut_eq_none (by decide) hcut) hlast more)
  cases hfirst : Text.cut Tag.braces more with
  | none =>
    rw [scan_of_cut_none _ hfirst, consText_consText]
    exact scan_of_cut_none _ (by rw [Tag.braces, hsplit]; simpa [Tag.braces] using hfirst)
  | some pair =>
    obtain ⟨before, after⟩ := pair
    have hboth : Text.cut Tag.braces (s ++ more) = some (s ++ before, after) := by
      rw [Tag.braces] at hfirst ⊢
      rw [hsplit, hfirst]
      rfl
    have hcount := backslashes_append hslash before
    by_cases hone : backslashes before = 1
    · have hdrop : (s ++ before).dropLast = s ++ before.dropLast := by
        apply List.dropLast_append_of_ne_nil
        rintro rfl
        cases hone
      cases hclose : Text.cutOutside Tag.closingBraces .outside after with
      | none =>
        rw [scan_of_unclosed _ hfirst hone hclose,
          scan_of_unclosed _ hboth (hcount.trans hone) hclose, consText_consText, hdrop]
        simp only [List.append_assoc]
      | some pair =>
        obtain ⟨body, rest⟩ := pair
        rw [scan_of_shielded _ hfirst hone hclose,
          scan_of_shielded _ hboth (hcount.trans hone) hclose, consText_consText, hdrop,
          Position.after_append, List.append_assoc]
    · rw [scan_of_slashed _ hfirst hone, scan_of_slashed _ hboth (by rwa [hcount]),
        consText_consText, unslashed_append hslash, Position.after_append]

/-- Segments that differ at most in where they stand. -/
inductive Alike : Segment → Segment → Prop
  | text (run : List Char) : Alike (text run) (text run)
  | tag (p q : Position) (t : Tag) : Alike (tag p t) (tag q t)
  | broken (p q : Position) (fault : Fault) : Alike (broken p fault) (broken q fault)

theorem consText_alike {first second : List Segment} (h : List.Forall₂ Alike first second)
    (run : List Char) : List.Forall₂ Alike (consText run first) (consText run second) := by
  cases run with
  | nil => exact h
  | cons c run =>
    cases h with
    | nil => exact .cons (.text _) .nil
    | cons halike hrest =>
      cases halike with
      | text more => exact .cons (.text _) hrest
      | tag p q t => exact .cons (.text _) (.cons (.tag p q t) hrest)
      | broken p q fault => exact .cons (.text _) (.cons (.broken p q fault) hrest)

/-- Where a text stands changes nothing else. -/
theorem scan_alike (s : List Char) (p q : Position) :
    List.Forall₂ Alike (scan p s) (scan q s) := by
  fun_induction scan p s generalizing q with
  | case1 p s hcut =>
    rw [scan_of_cut_none q hcut]
    exact consText_alike .nil s
  | case2 p s before after hcut _ hslash hclose =>
    rw [scan_of_unclosed q hcut hslash hclose]
    exact consText_alike .nil _
  | case3 p s before after hcut _ here hslash body rest hclose _ literal ih =>
    rw [scan_of_shielded q hcut hslash hclose]
    exact consText_alike (ih _) _
  | case4 p s before after hcut _ here hslash ih =>
    rw [scan_of_slashed q hcut hslash]
    apply consText_alike
    split
    · next fault hread =>
      rw [scanTag_of_read_error hread]
      exact .cons (.broken here _ fault) .nil
    · next t rest hread =>
      rw [scanTag_of_read hread]
      exact .cons (.tag here _ t) (ih t rest hread _)

end Segment

/-- The outermost open block has a closing tag of its own. -/
def Grounded : List OpenBlock → Prop
  | [] => True
  | b :: blocks => (b.chained = true → blocks ≠ []) ∧ Grounded blocks

theorem Grounded.eq_nil {blocks : List OpenBlock} (h : Grounded blocks)
    (hchained : ∀ b ∈ blocks, b.chained = true) : blocks = [] := by
  induction blocks with
  | nil => rfl
  | cons b blocks ih =>
    have hblocks := ih h.2 fun other hother => hchained other (List.mem_cons_of_mem b hother)
    exact absurd hblocks (h.1 (hchained b List.mem_cons_self))

namespace Nesting

theorem step_opening_eq_ok {n m : Nesting} {position : Position} {opening : Opening} :
    n.step position (.opening opening) = .ok m ↔
      n.depth < maxNesting ∧ m = n.enter position opening false := by
  rw [step]
  split
  · next hdepth => simp [Nat.not_lt.mpr hdepth]
  · next hdepth => simp [Nat.not_le.mp hdepth, eq_comm]

theorem invert_eq_ok {n m : Nesting} :
    n.invert = .ok m ↔ ∃ b blocks, n.blocks = b :: blocks ∧ b.main = none ∧
      m = ⟨[], { b with main := some ⟨n.current.reverse, b.opening.blockParams⟩ } :: blocks⟩ := by
  obtain ⟨current, blocks⟩ := n
  unfold invert
  cases blocks with
  | nil => simp
  | cons b blocks => cases hmain : b.main <;> simp [hmain, eq_comm]

theorem step_chain_eq_ok {n m : Nesting} {position : Position} {call : List Char} :
    n.step position (.chain call) = .ok m ↔
      ∃ inner opening, n.invert = .ok inner ∧ Opening.parse call = .ok opening ∧
        m = inner.enter position opening true := by
  rw [step]
  cases n.invert with
  | error fault => simp
  | ok inner =>
    cases Opening.parse call with
    | error fault => simp [Except.map]
    | ok opening => simp [Except.map, eq_comm]

/-- A tag is obeyed when it asks for something that can be done. -/
theorem apply_eq_ok {n m : Nesting} {position : Position} {t : Tag} :
    n.apply position t = .ok m ↔
      ∃ d, Directive.ofTag t = .ok d ∧ n.step position d = .ok m := by
  rw [apply]
  cases Directive.ofTag t with
  | error fault => simp
  | ok d =>
    simp only [Except.ok.injEq, exists_eq_left']
    cases n.step position d with
    | error fault => constructor <;> (intro h; cases h)
    | ok other => constructor <;> (intro h; cases h; rfl)

theorem invert_grounded {n m : Nesting} (hinvert : n.invert = .ok m) (h : Grounded n.blocks) :
    Grounded m.blocks ∧ m.blocks ≠ [] := by
  obtain ⟨b, blocks, hblocks, -, rfl⟩ := invert_eq_ok.mp hinvert
  rw [hblocks] at h
  exact ⟨h, by simp⟩

theorem close_grounded {name : String} {current : List Statement} {blocks : List OpenBlock}
    {m : Nesting} (hclose : close name current blocks = .ok m) (h : Grounded blocks) :
    Grounded m.blocks := by
  induction blocks generalizing current with
  | nil => cases hclose
  | cons b blocks ih =>
    rw [close] at hclose
    split at hclose
    · exact ih hclose h.2
    · split at hclose
      · cases hclose
        exact h.2
      · cases hclose

theorem step_grounded {n m : Nesting} {position : Position} {d : Directive}
    (hstep : n.step position d = .ok m) (h : Grounded n.blocks) : Grounded m.blocks := by
  cases d with
  | comment text => cases hstep; exact h
  | mustache head args escaped => cases hstep; exact h
  | embed name args => cases hstep; exact h
  | opening opening =>
    obtain ⟨-, rfl⟩ := step_opening_eq_ok.mp hstep
    exact ⟨by simp, h⟩
  | otherwise => exact (invert_grounded hstep h).1
  | chain call =>
    obtain ⟨inner, opening, hinvert, -, rfl⟩ := step_chain_eq_ok.mp hstep
    obtain ⟨hinner, hne⟩ := invert_grounded hinvert h
    exact ⟨fun _ => hne, hinner⟩
  | closing name => exact close_grounded hstep h

theorem run_tag_eq_ok {n m : Nesting} {position : Position} {t : Tag} {segments : List Segment}
    (h : n.run (.tag position t :: segments) = .ok m) :
    ∃ next, n.apply position t = .ok next ∧ next.run segments = .ok m := by
  rw [run] at h
  split at h
  · cases h
  · next next hnext => exact ⟨next, hnext, h⟩

theorem step_of_run {n m : Nesting} {position : Position} {t : Tag} {d : Directive}
    {segments : List Segment} (hd : Directive.ofTag t = .ok d)
    (h : n.run (.tag position t :: segments) = .ok m) :
    ∃ next, n.step position d = .ok next ∧ next.run segments = .ok m := by
  obtain ⟨next, happly, hrest⟩ := run_tag_eq_ok h
  obtain ⟨d', hd', hstep⟩ := apply_eq_ok.mp happly
  cases hd.symm.trans hd'
  exact ⟨next, hstep, hrest⟩

theorem run_append (n : Nesting) (first second : List Segment) :
    n.run (first ++ second) = (n.run first).bind (·.run second) := by
  induction first generalizing n with
  | nil => rfl
  | cons segment first ih =>
    cases segment with
    | text run => exact ih _
    | broken position fault => rfl
    | tag position t =>
      rw [List.cons_append, run, run]
      split
      · rfl
      · exact ih _

theorem run_append_of_ok {n next : Nesting} {first : List Segment} (h : n.run first = .ok next)
    (second : List Segment) : n.run (first ++ second) = next.run second := by
  rw [run_append, h]
  rfl

theorem exists_of_run_append {n m : Nesting} {first second : List Segment}
    (h : n.run (first ++ second) = .ok m) :
    ∃ next, n.run first = .ok next ∧ next.run second = .ok m := by
  rw [run_append] at h
  cases hfirst : n.run first with
  | error e =>
    rw [hfirst] at h
    cases h
  | ok next =>
    rw [hfirst] at h
    exact ⟨next, rfl, h⟩

theorem run_grounded {n m : Nesting} {segments : List Segment} (hrun : n.run segments = .ok m)
    (h : Grounded n.blocks) : Grounded m.blocks := by
  induction segments generalizing n with
  | nil =>
    cases hrun
    exact h
  | cons segment segments ih =>
    cases segment with
    | text run => exact ih hrun h
    | tag position t =>
      obtain ⟨next, happly, hrest⟩ := run_tag_eq_ok hrun
      obtain ⟨d, -, hstep⟩ := apply_eq_ok.mp happly
      exact ih hrest (step_grounded hstep h)
    | broken position fault => cases hrun

/-- A template that is read to its end leaves no block open. -/
theorem finish_eq_ok {n : Nesting} {p : Program} (h : Grounded n.blocks)
    (hfinish : n.finish = .ok p) : n.blocks = [] ∧ p = .ofBody n.current.reverse := by
  unfold finish at hfinish
  split at hfinish
  · cases hfinish
  · next hfind =>
    cases hfinish
    refine ⟨h.eq_nil fun b hb => ?_, rfl⟩
    simpa using List.find?_eq_none.mp hfind b (List.mem_reverse.mpr hb)

/-- Two places that differ in the statements at the very bottom and in where the blocks were
opened. -/
inductive Over (low high : List Statement) : Nesting → Nesting → Prop
  | outside (current : List Statement) :
      Over low high ⟨current ++ low, []⟩ ⟨current ++ high, []⟩
  | inside {outer outer' : Nesting} (position position' : Position) (opening : Opening)
      (main : Option Program) (chained : Bool) (current : List Statement)
      (around : Over low high outer outer') :
      Over low high
        ⟨current, ⟨position, opening, main, chained, outer.current⟩ :: outer.blocks⟩
        ⟨current, ⟨position', opening, main, chained, outer'.current⟩ :: outer'.blocks⟩

section
variable {low high : List Statement} {n n' m : Nesting} (h : Over low high n n')
include h

theorem Over.push (s : Statement) : Over low high (n.push s) (n'.push s) := by
  cases h with
  | outside current => exact .outside (s :: current)
  | inside position position' opening main chained current around =>
    exact .inside position position' opening main chained (s :: current) around

theorem Over.enter (position position' : Position) (opening : Opening) (chained : Bool) :
    Over low high (n.enter position opening chained) (n'.enter position' opening chained) :=
  .inside position position' opening none chained [] h

theorem Over.depth_eq : n.depth = n'.depth := by
  induction h with
  | outside current => rfl
  | inside position position' opening main chained current around ih =>
    simp only [depth, List.countP_cons] at ih ⊢
    rw [ih]

theorem Over.invert (hinvert : n.invert = .ok m) :
    ∃ m', n'.invert = .ok m' ∧ Over low high m m' := by
  cases h with
  | outside current => cases hinvert
  | inside position position' opening main chained current around =>
    cases main with
    | some main => cases hinvert
    | none =>
      cases hinvert
      exact ⟨_, rfl, .inside position position' opening _ chained [] around⟩

theorem Over.close {name : String} (hclose : close name n.current n.blocks = .ok m) :
    ∃ m', Nesting.close name n'.current n'.blocks = .ok m' ∧ Over low high m m' := by
  generalize hblocks : n.blocks = blocks at hclose
  -- A chained block becomes a statement of the block around it, which is then closed in turn.
  induction blocks generalizing n n' with
  | nil => cases hclose
  | cons b blocks ih =>
    cases h with
    | outside current => cases hblocks
    | @inside outer outer' position position' opening main chained current around =>
      cases hblocks
      rw [Nesting.close] at hclose ⊢
      split at hclose
      · next hchained =>
        rw [if_pos hchained]
        exact ih (around.push _) rfl hclose
      · next hchained =>
        rw [if_neg hchained]
        split at hclose
        · next hname =>
          cases hclose
          exact ⟨_, if_pos hname, around.push _⟩
        · cases hclose

theorem Over.step {position : Position} {d : Directive} (hstep : n.step position d = .ok m)
    (position' : Position) : ∃ m', n'.step position' d = .ok m' ∧ Over low high m m' := by
  cases d with
  | comment text => cases hstep; exact ⟨_, rfl, h.push _⟩
  | mustache head args escaped => cases hstep; exact ⟨_, rfl, h.push _⟩
  | embed name args => cases hstep; exact ⟨_, rfl, h.push _⟩
  | opening opening =>
    obtain ⟨hdepth, rfl⟩ := step_opening_eq_ok.mp hstep
    rw [h.depth_eq] at hdepth
    exact ⟨_, step_opening_eq_ok.mpr ⟨hdepth, rfl⟩, h.enter _ _ _ _⟩
  | otherwise => exact h.invert hstep
  | chain call =>
    obtain ⟨inner, opening, hinvert, hopening, rfl⟩ := step_chain_eq_ok.mp hstep
    obtain ⟨inner', hinvert', hinner⟩ := h.invert hinvert
    exact ⟨_, step_chain_eq_ok.mpr ⟨inner', opening, hinvert', hopening, rfl⟩,
      hinner.enter _ _ _ _⟩
  | closing name => exact h.close hstep

theorem Over.apply {position : Position} {t : Tag} (happly : n.apply position t = .ok m)
    (position' : Position) : ∃ m', n'.apply position' t = .ok m' ∧ Over low high m m' := by
  obtain ⟨d, hd, hstep⟩ := apply_eq_ok.mp happly
  obtain ⟨m', hstep', hover⟩ := h.step hstep position'
  exact ⟨m', apply_eq_ok.mpr ⟨d, hd, hstep'⟩, hover⟩

/-- Reading goes on in the same way whatever lies at the bottom and wherever the segments
stand. -/
theorem Over.run {segments segments' : List Segment}
    (halike : List.Forall₂ Segment.Alike segments segments') (hrun : n.run segments = .ok m) :
    ∃ m', n'.run segments' = .ok m' ∧ Over low high m m' := by
  induction halike generalizing n n' with
  | nil =>
    cases hrun
    exact ⟨n', rfl, h⟩
  | cons hfirst hrest ih =>
    cases hfirst with
    | text run => exact ih (h.push _) hrun
    | tag p q t =>
      obtain ⟨next, hnext, hmore⟩ := run_tag_eq_ok hrun
      obtain ⟨next', hnext', hover⟩ := h.apply hnext q
      obtain ⟨m', hm', hfinal⟩ := ih hover hmore
      refine ⟨m', ?_, hfinal⟩
      rw [Nesting.run, hnext']
      exact hm'
    | broken p q fault => cases hrun

end

theorem Over.eq_of_closed {low high current : List Statement} {m : Nesting}
    (h : Over low high ⟨current, []⟩ m) :
    ∃ added, current = added ++ low ∧ m = ⟨added ++ high, []⟩ := by
  cases h with
  | outside added => exact ⟨added, rfl, rfl⟩

theorem Over.refl (n : Nesting) : Over [] [] n n := by
  obtain ⟨current, blocks⟩ := n
  induction blocks generalizing current with
  | nil =>
    have houtside : Over [] [] ⟨current ++ [], []⟩ ⟨current ++ [], []⟩ := .outside current
    rwa [List.append_nil] at houtside
  | cons b blocks ih =>
    exact .inside b.position b.position b.opening b.main b.chained current (ih b.before)

/-- Where tags stand does not matter to a template that can be read. -/
theorem run_alike {n : Nesting} {current : List Statement} {segments segments' : List Segment}
    (halike : List.Forall₂ Segment.Alike segments segments')
    (hrun : n.run segments = .ok ⟨current, []⟩) : n.run segments' = .ok ⟨current, []⟩ := by
  obtain ⟨m, hm, hover⟩ := (Over.refl n).run halike hrun
  obtain ⟨added, rfl, rfl⟩ := hover.eq_of_closed
  exact hm

/-- Text in front of a tag is read before it. -/
theorem exists_run_consText (n : Nesting) (run : List Char) :
    ∃ next : Nesting, ∀ position t segments,
      n.run (Segment.consText run (.tag position t :: segments)) =
        next.run (.tag position t :: segments) := by
  cases run with
  | nil => exact ⟨n, fun _ _ _ => rfl⟩
  | cons c run => exact ⟨_, fun _ _ _ => rfl⟩

/-- What stands behind a template is read when the template has been read up to the text at its
end. -/

theorem run_scan_append {s more : List Char} (h : Segment.Layout s)
    (hlast : s.getLast? ≠ some '{') {n m : Nesting} {position : Position}
    (hrun : n.run (Segment.scan position s) = .ok m) :
    ∃ (last : Nesting) (run : List Char) (seam : Position),
      last.run (Segment.consText run []) = .ok m ∧
      n.run (Segment.scan position (s ++ more)) =
        last.run (Segment.consText run (Segment.scan seam more)) := by
  induction h generalizing n position with
  | @text s hslash hcut =>
    rw [Segment.scan_of_cut_none position hcut] at hrun
    rw [Segment.scan_text_append hcut hlast fun hslashed => hslash (List.mem_of_getLast? hslashed)]
    exact ⟨n, s, _, hrun, rfl⟩
  | @broken s before after fault hcut hslash hread =>
    rw [Segment.scan_of_read_error position hcut hslash hread] at hrun
    cases before <;> cases hrun
  | @tag s before after rest t hcut hslash hread htilde hsuffix hrest ih =>
    have hend : rest.getLast? ≠ some '{' := by
      obtain ⟨front, rfl⟩ := hsuffix
      intro hrest
      exact hlast (by rw [List.getLast?_append, hrest]; rfl)
    rw [Segment.scan_of_read position hcut hslash hread] at hrun
    rw [Segment.scan_of_read position (Text.cut_append_right hcut more) hslash
      (Tag.read_append_right hread more)]
    obtain ⟨next, hnext⟩ := exists_run_consText n before
    rw [hnext] at hrun ⊢
    obtain ⟨inner, happly, hinner⟩ := run_tag_eq_ok hrun
    obtain ⟨last, run, seam, hlastRun, heq⟩ := ih hend hinner
    refine ⟨last, run, seam, hlastRun, ?_⟩
    rw [Nesting.run, happly]
    exact heq

/-- The text at the end of a template is a statement of its own, unless text follows it. -/
theorem run_consText {n m : Nesting} {run : List Char}
    (h : n.run (Segment.consText run []) = .ok m) (segments : List Segment) :
    n.run (Segment.consText run segments) = m.run segments ∨
      ∃ more rest, segments = .text more :: rest ∧ m = n.push (.content (String.ofList run)) ∧
        n.run (Segment.consText run segments) =
          (n.push (.content (String.ofList run ++ String.ofList more))).run rest := by
  cases run with
  | nil =>
    cases h
    exact .inl rfl
  | cons c run =>
    cases h
    rcases segments with _ | ⟨_ | _ | _, rest⟩
    · exact .inl rfl
    · next more =>
      refine .inr ⟨more, rest, rfl, rfl, ?_⟩
      rw [← String.ofList_append]
      rfl
    · exact .inl rfl
    · exact .inl rfl

end Nesting

/-- The statements of two templates that stand one after the other: two texts that meet are
one. -/
inductive Joined : List Statement → List Statement → List Statement → Prop
  | apart (first second : List Statement) : Joined first second (first ++ second)
  | touching (first second : List Statement) (a b : String) :
      Joined (first ++ [.content a]) (.content b :: second) (first ++ .content (a ++ b) :: second)

namespace Program

/-- A template can be read if its segments leave no block open. -/
theorem ofText_eq_ok_iff {s : List Char} {p : Program} :
    ofText s = .ok p ↔ ∃ current, Nesting.run {} (Segment.ofSource s) = .ok ⟨current, []⟩ ∧
      p = .ofBody current.reverse := by
  rw [ofText]
  constructor
  · intro hp
    split at hp
    · cases hp
    · next n hrun =>
      obtain ⟨hblocks, rfl⟩ := Nesting.finish_eq_ok (Nesting.run_grounded hrun trivial) hp
      obtain ⟨current, blocks⟩ := n
      cases hblocks
      exact ⟨current, hrun, rfl⟩
  · rintro ⟨current, hrun, rfl⟩
    rw [hrun]
    rfl

theorem ofText_eq_ok_iff_scan {s : List Char} (h : Segment.Layout s) {p : Program} :
    ofText s = .ok p ↔ ∃ current, Nesting.run {} (Segment.scan .start s) = .ok ⟨current, []⟩ ∧
      p = .ofBody current.reverse := by
  rw [ofText_eq_ok_iff, Segment.ofSource, Segment.tidy_scan h]

/-- Two templates that can be read can be read one after the other. -/
theorem ofText_append {s t : List Char} {p q : Program} (hs : '~' ∉ s ∧ '\\' ∉ s)
    (ht : '~' ∉ t ∧ '\\' ∉ t) (hlast : s.getLast? ≠ some '{') (hp : ofText s = .ok p)
    (hq : ofText t = .ok q) : ∃ r, ofText (s ++ t) = .ok r ∧ Joined p.body q.body r.body := by
  have hlayout := Segment.layout t ht.1 ht.2
  have hboth := Segment.layout (s ++ t) (by simp [hs.1, ht.1]) (by simp [hs.2, ht.2])
  obtain ⟨first, hfirst, rfl⟩ := (ofText_eq_ok_iff_scan (Segment.layout s hs.1 hs.2)).mp hp
  obtain ⟨second, hsecond, rfl⟩ := (ofText_eq_ok_iff_scan hlayout).mp hq
  obtain ⟨last, run, seam, hend, hrun⟩ :=
    Nesting.run_scan_append (Segment.layout s hs.1 hs.2) hlast hfirst
  have halike := Segment.scan_alike t .start seam
  rcases Nesting.run_consText hend (Segment.scan seam t) with hcase | hcase
  · have hover : Nesting.Over [] first {} ⟨first, []⟩ := .outside []
    obtain ⟨m, hm, hfinal⟩ := hover.run halike hsecond
    obtain ⟨added, rfl, rfl⟩ := hfinal.eq_of_closed
    refine ⟨_, (ofText_eq_ok_iff_scan hboth).mpr ⟨_, (hrun.trans hcase).trans hm, rfl⟩, ?_⟩
    simpa using Joined.apart first.reverse added.reverse
  · obtain ⟨more, rest, hsegments, hpush, hcase⟩ := hcase
    obtain ⟨current, blocks⟩ := last
    cases hpush
    rw [hsegments] at halike
    -- The second template begins with the same text, wherever it stands.
    generalize Segment.scan .start t = segments at halike hsecond
    obtain _ | ⟨hhead, hrest⟩ := halike
    cases hhead
    have hover : Nesting.Over [.content (String.ofList more)]
        (.content (String.ofList run ++ String.ofList more) :: current)
        ⟨[.content (String.ofList more)], []⟩
        ⟨.content (String.ofList run ++ String.ofList more) :: current, []⟩ := .outside []
    obtain ⟨m, hm, hfinal⟩ := hover.run hrest hsecond
    obtain ⟨added, rfl, rfl⟩ := hfinal.eq_of_closed
    refine ⟨_, (ofText_eq_ok_iff_scan hboth).mpr ⟨_, (hrun.trans hcase).trans hm, rfl⟩, ?_⟩
    simpa using Joined.touching current.reverse added.reverse (String.ofList run)
      (String.ofList more)

end Program

end Stencil.Handlebars
