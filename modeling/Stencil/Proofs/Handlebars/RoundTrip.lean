import Stencil.Handlebars.Parse
import Stencil.Proofs.Handlebars.ReadTag

/-!
# Printed templates are read back

The segments of a printed statement are followed through the stack of open
blocks: a statement is added to the innermost block, and a printed block opens,
fills and closes one. The text behind a statement only has to begin with a tag,
or not to be there at all, so that no two texts run together. Some programs have
no template at all; for each condition on them there is one that is not read
back.
-/

namespace Stencil.Handlebars

open Text (Position)

namespace Segment

/-- A text that begins with a tag without a left tilde, or is empty. -/
def Opens (s : List Char) : Prop :=
  s = [] ∨ ∃ t, s = '{' :: '{' :: t ∧ t.head? ≠ some '~'

theorem scan_of_cut_none {s : List Char} (position : Position) (h : Text.cut Tag.braces s = none) :
    scan position s = consText s [] := by
  rw [scan]
  split
  · rfl
  · next hs =>
    rw [h] at hs
    cases hs

theorem scan_nil (position : Position) : scan position [] = [] :=
  scan_of_cut_none position rfl

/-- What a tag that stands behind some text is scanned to. -/
def scanTag (position : Position) (s : List Char) : List Segment :=
  match Tag.read s with
  | .error fault => [broken position fault]
  | .ok (t, rest) => tag position t :: scan (position.after t.lexeme) rest

/-- What is kept of the text in front of a tag: of the backslashes at its end, one is dropped. -/
def unslashed (before : List Char) : List Char :=
  if backslashes before = 0 then before else before.dropLast

section
variable {s before after : List Char} (position : Position)
variable (hcut : Text.cut Tag.braces s = some (before, after))
include hcut

theorem scan_of_slashed (hslash : backslashes before ≠ 1) :
    scan position s = consText (unslashed before) (scanTag (position.after before) after) := by
  rw [scan]
  split
  · next hs =>
    rw [hcut] at hs
    cases hs
  · next b a hs =>
    rw [hcut] at hs
    obtain ⟨rfl, rfl⟩ := Prod.mk.inj (Option.some.inj hs)
    rw [if_neg hslash, unslashed, scanTag]
    congr 1
    split <;> simp_all

theorem scan_of_cut (hslash : backslashes before = 0) :
    scan position s = consText before (scanTag (position.after before) after) := by
  rw [scan_of_slashed position hcut (by simp [hslash]), unslashed, if_pos hslash]

theorem scan_of_unclosed (hslash : backslashes before = 1)
    (hclose : Text.cutOutside Tag.closingBraces .outside after = none) :
    scan position s = consText (before.dropLast ++ Tag.braces ++ after) [] := by
  rw [scan]
  split
  · next hs =>
    rw [hcut] at hs
    cases hs
  · next b a hs =>
    rw [hcut] at hs
    obtain ⟨rfl, rfl⟩ := Prod.mk.inj (Option.some.inj hs)
    rw [if_pos hslash]
    split
    · rfl
    · next hs =>
      rw [hclose] at hs
      cases hs

theorem scan_of_shielded (hslash : backslashes before = 1) {body rest : List Char}
    (hclose : Text.cutOutside Tag.closingBraces .outside after = some (body, rest)) :
    scan position s = consText (before.dropLast ++ inBraces body)
      (scan ((position.after before).after (inBraces body)) rest) := by
  rw [scan]
  split
  · next hs =>
    rw [hcut] at hs
    cases hs
  · next b a hs =>
    rw [hcut] at hs
    obtain ⟨rfl, rfl⟩ := Prod.mk.inj (Option.some.inj hs)
    rw [if_pos hslash]
    split
    · next hs =>
      rw [hclose] at hs
      cases hs
    · next b r hs =>
      rw [hclose] at hs
      obtain ⟨rfl, rfl⟩ := Prod.mk.inj (Option.some.inj hs)
      rfl

end

theorem scan_braces (position : Position) (s : List Char) :
    scan position ('{' :: '{' :: s) = scanTag position s := by
  have hcut : Text.cut Tag.braces ('{' :: '{' :: s) = some ([], s) := by
    simp [Text.cut, Text.behind?, Tag.braces]
  rw [scan_of_cut position hcut rfl]
  rfl

theorem backslashes_eq_zero {s : List Char} (h : s.getLast? ≠ some '\\') : backslashes s = 0 := by
  rw [List.getLast?_eq_head?_reverse] at h
  rw [backslashes]
  cases hr : s.reverse with
  | nil => rfl
  | cons c t =>
    have hc : c ≠ '\\' := by simpa [hr] using h
    simp [hc]

/-- A printed text is scanned up to the tag or the end behind it. -/
theorem scan_content {text : String} (hn : (Statement.content text).Normal) {rest : List Char}
    (hrest : Opens rest) (position : Position) :
    scan position (text.toList ++ rest) =
      consText text.toList (scan (position.after text.toList) rest) := by
  obtain ⟨-, hbraces, hlast, hslash⟩ := hn
  rcases hrest with rfl | ⟨t, rfl, -⟩
  · rw [List.append_nil, scan_nil]
    exact scan_of_cut_none position (Text.cut_eq_none hbraces)
  · rw [scan_braces]
    exact scan_of_cut position (Text.cut_braces_append hbraces hlast) (backslashes_eq_zero hslash)

/-- Segments that a text can be put in front of without being joined or trimmed. -/
def Firm (segments : List Segment) : Prop :=
  wantsTrim segments = false ∧ ∀ run more, segments ≠ text run :: more

theorem firm_scan {s : List Char} (h : Opens s) (position : Position) : Firm (scan position s) := by
  rcases h with rfl | ⟨t, rfl, ht⟩
  · rw [scan_nil]
    exact ⟨rfl, by simp⟩
  · rw [scan_braces, scanTag]
    have hdrop : (Tag.dropTilde t).1 = false := by
      cases t with
      | nil => rfl
      | cons c t =>
        have hc : c ≠ '~' := by simpa using ht
        simp [Tag.dropTilde, hc]
    split
    · exact ⟨rfl, by simp⟩
    · next tag rest hread =>
      rw [Tag.read] at hread
      split at hread
      · cases hread
      · cases hread
        exact ⟨hdrop, by simp⟩

theorem tidy_consText {run : List Char} {segments : List Segment} (hr : run ≠ [])
    (hs : Firm segments) :
    tidy false (consText run segments) = text run :: tidy false segments := by
  obtain ⟨c, run, rfl⟩ := List.exists_cons_of_ne_nil hr
  cases segments with
  | nil => rfl
  | cons segment segments =>
    cases segment with
    | text more => exact absurd rfl (hs.2 more segments)
    | tag position t =>
      have ht : t.trimLeft = false := hs.1
      simp [consText, tidy, wantsTrim, ht]
    | broken position fault => simp [consText, tidy, wantsTrim]

/-- The trimmed segments of a text that begins at `position`, behind a tag without a tilde. -/
def tidied (position : Position) (s : List Char) : List Segment :=
  tidy false (scan position s)

theorem tidied_nil (position : Position) : tidied position [] = [] := by
  rw [tidied, scan_nil, tidy]

theorem tidied_content {text : String} (hn : (Statement.content text).Normal) {rest : List Char}
    (hrest : Opens rest) (position : Position) :
    tidied position (text.toList ++ rest) =
      .text text.toList :: tidied (position.after text.toList) rest := by
  have hne : text.toList ≠ [] := fun h => hn.1 (String.toList_inj.1 h)
  rw [tidied, scan_content hn hrest, tidy_consText hne (firm_scan hrest _)]
  rfl

theorem tidied_tag {i rest : List Char} {t : Tag}
    (hread : Tag.read (i ++ Tag.closingBraces ++ rest) = .ok (t, rest))
    (hright : t.trimRight = false) (position : Position) :
    tidied position (inBraces i ++ rest) =
      tag position t :: tidied (position.after (inBraces i)) rest := by
  have hlexeme : t.lexeme = inBraces i := by
    have happ := Tag.append_of_read hread
    rw [← List.append_assoc, ← List.append_assoc] at happ
    exact (List.append_cancel_right happ).symm
  have hscan : scan position (inBraces i ++ rest) =
      tag position t :: scan (position.after (inBraces i)) rest := by
    have hbraces : inBraces i ++ rest = '{' :: '{' :: (i ++ Tag.closingBraces ++ rest) := by
      simp [inBraces, Tag.braces]
    rw [hbraces, scan_braces, scanTag, hread, ← hlexeme]
  rw [tidied, hscan, tidy, hright]
  rfl

end Segment

namespace Nesting

open Segment (Opens tidied)

def extend (n : Nesting) (body : List Statement) : Nesting :=
  { n with current := body.reverse ++ n.current }

@[simp] theorem extend_nil (n : Nesting) : n.extend [] = n := rfl

@[simp] theorem extend_cons (n : Nesting) (s : Statement) (body : List Statement) :
    n.extend (s :: body) = (n.push s).extend body := by
  simp [extend, push]

section
variable {n n' : Nesting} {t : Tag} {d : Directive} {position : Position}
variable (hd : Directive.ofTag t = .ok d)
include hd

theorem run_of_step (hstep : n.step position d = .ok n') (segments : List Segment) :
    n.run (.tag position t :: segments) = n'.run segments := by
  rw [run, apply, hd]
  simp only [hstep]
  rfl

theorem run_of_fault {fault : Fault} (hstep : n.step position d = .error fault)
    (segments : List Segment) :
    n.run (.tag position t :: segments) = .error ⟨position, fault⟩ := by
  rw [run, apply, hd]
  simp only [hstep]
  rfl

end

theorem run_tag {n n' : Nesting} {i rest : List Char} {t : Tag} {d : Directive}
    {position : Position} (hread : Tag.read (i ++ Tag.closingBraces ++ rest) = .ok (t, rest))
    (hright : t.trimRight = false) (hd : Directive.ofTag t = .ok d)
    (hstep : n.step position d = .ok n') :
    n.run (tidied position (inBraces i ++ rest)) =
      n'.run (tidied (position.after (inBraces i)) rest) := by
  rw [Segment.tidied_tag hread hright, run_of_step hd hstep]

theorem run_tag_error {n : Nesting} {i rest : List Char} {t : Tag} {d : Directive} {fault : Fault}
    {position : Position} (hread : Tag.read (i ++ Tag.closingBraces ++ rest) = .ok (t, rest))
    (hright : t.trimRight = false) (hd : Directive.ofTag t = .ok d)
    (hstep : n.step position d = .error fault) :
    n.run (tidied position (inBraces i ++ rest)) = .error ⟨position, fault⟩ := by
  rw [Segment.tidied_tag hread hright, run_of_fault hd hstep]

theorem opens_print {s : Statement} (h : s.isContent = false) (rest : List Char) :
    Opens (s.print ++ rest) := by
  right
  cases s with
  | content text => cases h
  | comment text => exact ⟨_, rfl, by simp⟩
  | mustache head args escaped =>
    cases escaped <;> exact ⟨_, rfl, by simp [inner]⟩
  | block helper args program inverse =>
    obtain ⟨body, blockParams⟩ := program
    rw [Statement.print]
    exact ⟨_, rfl, by simp [inner]⟩
  | embed name args => exact ⟨_, rfl, by simp [inner]⟩

theorem opens_inverse {rest : List Char} (h : Opens rest) (inverse : Option Program) :
    Opens (printInverse inverse ++ rest) := by
  cases inverse with
  | none => simpa [printInverse] using h
  | some program =>
    obtain ⟨body, names⟩ := program
    right
    rw [printInverse]
    exact ⟨_, rfl, by simp⟩

theorem opens_closing (name rest : List Char) :
    Opens (inBraces ('/' :: name ++ [' ']) ++ rest) :=
  .inr ⟨_, rfl, by simp⟩

theorem run_comment {text : String} (hn : (Statement.comment text).Normal) (n : Nesting)
    (position : Position) (rest : List Char) :
    n.run (tidied position ((Statement.comment text).print ++ rest)) =
      (n.push (.comment text)).run
        (tidied (position.after (Statement.comment text).print) rest) := by
  rw [Statement.print]
  apply run_tag (Tag.read_comment hn.1 hn.2) rfl rfl
  rw [step, String.ofList_toList]

theorem run_mustache {head : Expr} {args : Arguments} {escaped : Bool}
    (hn : (Statement.mustache head args escaped).Normal)
    (hx : (Statement.mustache head args escaped).Expressible) (n : Nesting)
    (position : Position) (rest : List Char) :
    n.run (tidied position ((Statement.mustache head args escaped).print ++ rest)) =
      (n.push (.mustache head args escaped)).run
        (tidied (position.after (Statement.mustache head args escaped).print) rest) := by
  obtain ⟨hhead, hargs⟩ := hn
  obtain ⟨hcall, hbegin, hxh, hxa⟩ := hx
  have hnc : Call.Normal { head, args } := ⟨hhead, hargs, by simp⟩
  have hxc : Call.Expressible { head, args } := ⟨hxh, hxa⟩
  rw [Statement.print]
  cases escaped with
  | true =>
    exact run_tag (Tag.read_call hnc hxc (.inl rfl) rest) rfl
      (Directive.ofTag_escaped hnc hxc (hbegin rfl) hcall rfl) rfl
  | false =>
    exact run_tag (Tag.read_call hnc hxc (.inr (.inl rfl)) rest) rfl
      (Directive.ofTag_raw hnc hxc hcall rfl) rfl

theorem run_embed {name : Expr} {args : Arguments} (hn : (Statement.embed name args).Normal)
    (hx : (Statement.embed name args).Expressible) (n : Nesting) (position : Position)
    (rest : List Char) :
    n.run (tidied position ((Statement.embed name args).print ++ rest)) =
      (n.push (.embed name args)).run
        (tidied (position.after (Statement.embed name args).print) rest) := by
  have hnc : Call.Normal { head := name, args } := ⟨hn.1, hn.2, by simp⟩
  have hxc : Call.Expressible { head := name, args } := ⟨hx.1, hx.2⟩
  rw [Statement.print]
  exact run_tag (Tag.read_call hnc hxc (.inr (.inr (.inl rfl))) rest) rfl
    (Directive.ofTag_embed hnc hxc) rfl

theorem depth_push (n : Nesting) (s : Statement) : (n.push s).depth = n.depth := rfl

theorem depth_enter (n : Nesting) (position : Position) (opening : Opening) :
    (n.enter position opening false).depth = n.depth + 1 := by
  simp [depth, enter]

/-- A text among statements that stand apart has a tag or the end behind it. -/
theorem opens_of_apart {s : Statement} {body : List Statement} (h : Apart (s :: body))
    {rest : List Char} (hrest : Opens rest) (hs : s.isContent = true) :
    Opens (printBody body ++ rest) := by
  cases body with
  | nil => simpa [printBody] using hrest
  | cons t body =>
    rw [printBody, List.append_assoc]
    exact opens_print (h.1 hs) _

/-- The closing tag of the innermost block completes it. -/
theorem run_close (current : List Statement) (b : OpenBlock) (blocks : List OpenBlock)
    (hchained : b.chained = false) (hname : IsWord b.name.toList) (position : Position)
    (rest : List Char) :
    Nesting.run ⟨current, b :: blocks⟩
        (tidied position (inBraces ('/' :: b.name.toList ++ [' ']) ++ rest)) =
      Nesting.run ⟨b.complete current :: b.before, blocks⟩
        (tidied (position.after (inBraces ('/' :: b.name.toList ++ [' ']))) rest) := by
  apply run_tag (Tag.read_closing hname.canClose rest) rfl
    (Directive.ofTag_closing hname.canClose)
  simp [step, close, hchained]

mutual

theorem run_statement : ∀ {s : Statement}, s.All Statement.Normal → s.All Statement.Expressible →
    ∀ {n : Nesting} {rest : List Char}, n.depth + s.height ≤ maxNesting →
      (s.isContent = true → Opens rest) → ∀ position,
        n.run (tidied position (s.print ++ rest)) =
          (n.push s).run (tidied (position.after s.print) rest)
  | .content text, hn, _, n, rest, _, hrest, position => by
    have hc : (Statement.content text).Normal := by simpa only [Statement.All] using hn
    rw [Statement.print, Segment.tidied_content hc (hrest rfl), run, String.ofList_toList]
  | .comment text, hn, _, n, rest, _, _, position =>
    run_comment (by simpa only [Statement.All] using hn) n position rest
  | .mustache head args escaped, hn, hx, n, rest, _, _, position =>
    run_mustache (by simpa only [Statement.All] using hn)
      (by simpa only [Statement.All] using hx) n position rest
  | .embed name args, hn, hx, n, rest, _, _, position =>
    run_embed (by simpa only [Statement.All] using hn)
      (by simpa only [Statement.All] using hx) n position rest
  | .block helper args ⟨body, blockParams⟩ inverse, hn, hx, n, rest, hdepth, _, position => by
    simp only [Statement.All, Statement.Normal] at hn
    simp only [Statement.All, Statement.Expressible] at hx
    simp only [Statement.height] at hdepth
    obtain ⟨⟨hhelper, hargs, hnames, hapart, hother⟩, hnb, hni⟩ := hn
    obtain ⟨⟨hxa, hroot⟩, hxb, hxi⟩ := hx
    have hhead : Expr.All Expr.Normal (.path helper) := by
      simpa only [Expr.All, Expr.Normal] using hhelper
    have hnc : Call.Normal { head := .path helper, args, blockParams } := ⟨hhead, hargs, hnames⟩
    have hxc : Call.Expressible { head := .path helper, args, blockParams } :=
      ⟨by simp only [Expr.All, Expr.Expressible], hxa⟩
    have hopen : n.step position (.opening ⟨helper, args, blockParams⟩) =
        .ok (n.enter position ⟨helper, args, blockParams⟩ false) := by
      rw [step, if_neg (by omega)]
    have hbody : (n.enter position ⟨helper, args, blockParams⟩ false).depth + heightBody body ≤
        maxNesting := by
      rw [depth_enter]
      omega
    have hinverse : (n.enter position ⟨helper, args, blockParams⟩ false).depth +
        heightInverse inverse ≤ maxNesting := by
      rw [depth_enter]
      omega
    rw [Statement.print, List.append_assoc, List.append_assoc, List.append_assoc,
      run_tag (Tag.read_call hnc hxc (.inr (.inr (.inr rfl))) _) rfl
        (Directive.ofTag_opening hnc hxc) hopen,
      run_body hapart hnb hxb hbody (opens_inverse (opens_closing _ _) inverse)]
    have hclose := run_inverse hother hroot hni hxi body.reverse
      ⟨position, ⟨helper, args, blockParams⟩, none, false, n.current⟩ n.blocks rest rfl rfl
      hhelper.word hinverse
      ((position.after (inBraces (inner ['#'] { head := .path helper, args, blockParams }))).after
        (printBody body))
    simp only [List.reverse_reverse, Position.after_append] at hclose
    simp only [extend, enter, List.append_nil, push, Position.after_append]
    exact hclose

theorem run_body : ∀ {body : List Statement}, Apart body → AllBody Statement.Normal body →
    AllBody Statement.Expressible body → ∀ {n : Nesting} {rest : List Char},
      n.depth + heightBody body ≤ maxNesting → Opens rest → ∀ position,
        n.run (tidied position (printBody body ++ rest)) =
          (n.extend body).run (tidied (position.after (printBody body)) rest)
  | [], _, _, _, n, rest, _, _, position => by simp [printBody]
  | s :: body, ha, hn, hx, n, rest, hdepth, hrest, position => by
    simp only [AllBody] at hn hx
    simp only [heightBody] at hdepth
    have hs : (n.depth + s.height ≤ maxNesting) := by omega
    have hb : (n.push s).depth + heightBody body ≤ maxNesting := by
      rw [depth_push]
      omega
    rw [printBody, List.append_assoc,
      run_statement hn.1 hx.1 hs (opens_of_apart ha hrest),
      run_body (apart_tail ha) hn.2 hx.2 hb hrest, extend_cons, Position.after_append]

theorem run_inverse : ∀ {inverse : Option Program}, (∀ other ∈ inverse, Apart other.body) →
    (∀ other ∈ inverse, other.blockParams = []) → AllInverse Statement.Normal inverse →
      AllInverse Statement.Expressible inverse →
      ∀ (current : List Statement) (b : OpenBlock) (blocks : List OpenBlock) (rest : List Char),
        b.main = none → b.chained = false → IsWord b.name.toList →
        Nesting.depth ⟨current, b :: blocks⟩ + heightInverse inverse ≤ maxNesting → ∀ position,
          Nesting.run ⟨current, b :: blocks⟩ (tidied position (printInverse inverse ++
            (inBraces ('/' :: b.name.toList ++ [' ']) ++ rest))) =
          Nesting.run ⟨.block b.opening.helper b.opening.args
              ⟨current.reverse, b.opening.blockParams⟩ inverse :: b.before, blocks⟩
            (tidied (position.after (printInverse inverse ++
              inBraces ('/' :: b.name.toList ++ [' ']))) rest)
  | none, _, _, _, _, current, b, blocks, rest, hmain, hchained, hname, _, position => by
    rw [printInverse, List.nil_append, List.nil_append, run_close _ _ _ hchained hname,
      OpenBlock.complete, hmain]
  | some ⟨body, names⟩, ha, hnames, hn, hx, current, b, blocks, rest, hmain, hchained, hname,
      hdepth, position => by
    have helse : Nesting.step ⟨current, b :: blocks⟩ position .otherwise =
        .ok ⟨[], { b with main := some ⟨current.reverse, b.opening.blockParams⟩ } :: blocks⟩ := by
      simp only [step, invert, hmain]
    have hbody : Nesting.depth
        ⟨[], { b with main := some ⟨current.reverse, b.opening.blockParams⟩ } :: blocks⟩ +
          heightBody body ≤ maxNesting := by
      simpa [depth, heightInverse, List.countP_cons] using hdepth
    simp only [AllInverse] at hn hx
    have hroot : names = [] := hnames _ rfl
    rw [printInverse, List.append_assoc, run_tag (Tag.read_else _) rfl Directive.ofTag_else helse,
      run_body (ha _ rfl) hn hx hbody (opens_closing _ _)]
    have hclose := run_close body.reverse
      { b with main := some ⟨current.reverse, b.opening.blockParams⟩ } blocks hchained hname
      ((position.after (inBraces ['e', 'l', 's', 'e'])).after (printBody body)) rest
    simp only [OpenBlock.complete, List.reverse_reverse] at hclose
    simp only [extend, List.append_nil, Position.after_append, hroot]
    exact hclose

end

end Nesting

theorem Path.normal_parse {s : String} (hw : IsWord s.toList)
    (hr : isLiteralWord s.toList = false) : (Path.parse s).Normal where
  spelled := by simp
  word := by simpa using hw
  reference := by simpa using hr

namespace Program

/-- Reading undoes printing. -/
theorem parse_print_of_normal {p : Program} (hn : p.Normal) (hx : p.Expressible) :
    Program.parse (String.ofList p.print) = .ok p := by
  obtain ⟨body, blockParams⟩ := p
  have hdepth : Nesting.depth {} + heightBody body ≤ maxNesting := by
    simpa [Nesting.depth] using hx.nesting
  have hroot : blockParams = [] := hx.root
  have hrun := Nesting.run_body hn.1 hn.2 hx.statements hdepth (.inl rfl) Position.start
  rw [List.append_nil, Segment.tidied_nil, Nesting.run] at hrun
  have hread : Nesting.run {} (Segment.ofSource (printBody body)) = .ok (Nesting.extend {} body) :=
    hrun
  rw [Program.parse, String.toList_ofList, Program.ofText, Program.print, hread, hroot]
  simp [Nesting.finish, Nesting.extend, Program.ofBody]

/-- An embedded template with a quote and braces in its name, a comment, and a loop with two
names, a raw value with nested and named arguments, and an inverse. -/
def sample : Program :=
  ⟨[.content "\x7d b", .embed (.string "x\"\x7d\x7d\\y") ⟨[.path (.parse "../c")], []⟩,
    .comment "-",
    .block (.parse "each") ⟨[.path (.parse "rows")], []⟩
      ⟨[.mustache (.path (.parse "as"))
        ⟨[.call (.parse "g") [.number "-1.5"] [("k", .null)]], [("as", .boolean true)]⟩ false],
        ["v", "k"]⟩
      (some ⟨[.mustache (.path (.parse "@key")) {} true, .content "\n"], []⟩)], []⟩

theorem sample_normal : sample.Normal := by
  simp only [sample, Program.Normal, AllBody, AllInverse, Statement.All, Statement.Normal, Expr.All,
    Expr.Normal, Expr.AllParams, Expr.AllHash, Arguments.Normal, Arguments.All]
  simp (disch := decide) only [Path.normal_parse]
  simp [Apart, Statement.isContent]
  decide

theorem sample_expressible : sample.Expressible where
  root := rfl
  statements := by
    simp [sample, AllBody, AllInverse, Statement.All, Statement.Expressible, Expr.All,
      Expr.Expressible, Expr.AllParams, Expr.AllHash, Arguments.All, Expr.isCall, Expr.CanBegin]
    decide
  nesting := by decide

theorem parse_print_sample :
    sample.Normal ∧ sample.Expressible ∧
      Program.parse (String.ofList sample.print) = .ok sample :=
  ⟨sample_normal, sample_expressible, parse_print_of_normal sample_normal sample_expressible⟩

-- Each condition on expressible programs is needed: the following are normal and are not read back.

def interpolation (head : Expr) : Program :=
  ⟨[.mustache head {} true], []⟩

theorem interpolation_normal {head : Expr} (h : head.All Expr.Normal) :
    (interpolation head).Normal := by
  simp [interpolation, Program.Normal, Apart, AllBody, Statement.All, Statement.Normal,
    Arguments.Normal, Arguments.All, Expr.AllParams, Expr.AllHash, h]

def namedInverse : Program :=
  ⟨[.block (.parse "if") {} ⟨[], []⟩ (some ⟨[], ["a"]⟩)], []⟩

theorem namedInverse_normal : namedInverse.Normal := by
  have hpath : (Path.parse "if").Normal := Path.normal_parse (by decide) (by decide)
  simp [namedInverse, Program.Normal, Apart, AllBody, AllInverse, Statement.All, Statement.Normal,
    Arguments.Normal, Arguments.All, Expr.AllParams, Expr.AllHash, hpath]

def inverseNames (p : Program) : List String :=
  match p.body with
  | .block _ _ _ (some other) :: _ => other.blockParams
  | _ => []

def tower : Nat → List Statement
  | 0 => []
  | levels + 1 => [.block (.parse "a") {} ⟨tower levels, []⟩ none]

theorem tower_normal (levels : Nat) : AllBody Statement.Normal (tower levels) := by
  induction levels with
  | zero => trivial
  | succ levels ih =>
    have hapart : Apart (tower levels) := by
      cases levels <;> trivial
    have hpath : (Path.parse "a").Normal := Path.normal_parse (by decide) (by decide)
    simp [tower, AllBody, AllInverse, Statement.All, Statement.Normal, Arguments.Normal,
      Arguments.All, Expr.AllParams, Expr.AllHash, hapart, hpath, ih]

/-- One level too many is refused when it is reached. -/
theorem run_tower (levels : Nat) {n : Nesting} (hdepth : n.depth ≤ maxNesting)
    (h : maxNesting < n.depth + levels) (rest : List Char) (position : Position) :
    ∃ e, n.run (Segment.tidied position (printBody (tower levels) ++ rest)) = .error e := by
  have hn : Call.Normal { head := .path (.parse "a") } := by
    refine ⟨?_, by simp [Arguments.Normal, Arguments.All, Expr.AllParams, Expr.AllHash], by simp⟩
    simp only [Expr.All, Expr.Normal]
    exact Path.normal_parse (by decide) (by decide)
  have hx : Call.Expressible { head := .path (.parse "a") } := by
    refine ⟨?_, by simp [Arguments.All, Expr.AllParams, Expr.AllHash]⟩
    simp only [Expr.All, Expr.Expressible]
  have hopen := Directive.ofTag_opening hn hx
  induction levels generalizing n rest position with
  | zero => omega
  | succ levels ih =>
    rw [tower, printBody, Statement.print, List.append_assoc, List.append_assoc, List.append_assoc,
      List.append_assoc]
    have hread (rest : List Char) := Tag.read_call hn hx (.inr (.inr (.inr rfl))) rest
    by_cases hfull : maxNesting ≤ n.depth
    · have hstep : n.step position (.opening ⟨.parse "a", {}, []⟩) =
          .error (.tooDeep maxNesting) := by
        rw [Nesting.step, if_pos hfull]
      exact ⟨_, Nesting.run_tag_error (hread _) rfl hopen hstep⟩
    · have hstep : n.step position (.opening ⟨.parse "a", {}, []⟩) =
          .ok (n.enter position ⟨.parse "a", {}, []⟩ false) := by
        rw [Nesting.step, if_neg hfull]
      rw [Nesting.run_tag (hread _) rfl hopen hstep]
      apply ih
      all_goals
        rw [Nesting.depth_enter]
        omega

theorem ne_ok_of_isNone {s : String} {p : Program}
    (h : (Program.parse s).toOption.isNone = true) : Program.parse s ≠ .ok p := by
  intro hp
  rw [hp] at h
  cases h

theorem tower_not_read_back {levels : Nat} (h : maxNesting < levels) :
    Program.parse (String.ofList (Program.print ⟨tower levels, []⟩)) ≠ .ok ⟨tower levels, []⟩ := by
  have hdeep : maxNesting < Nesting.depth {} + levels := by simpa [Nesting.depth] using h
  obtain ⟨e, he⟩ := run_tower levels (Nat.zero_le _) hdeep [] Position.start
  rw [List.append_nil] at he
  have hread : Nesting.run {} (Segment.ofSource (printBody (tower levels))) = .error e := he
  rw [Program.parse, String.toList_ofList, Program.ofText, Program.print, hread]
  simp

/-- A string that ends in a backslash, an interpolated `else`, a reference that begins with a
sign, an interpolated call, names at the root and in an inverse, and one block too many. -/
theorem normal_not_read_back :
    ((interpolation (.string "a\\")).Normal ∧
      Program.parse (String.ofList (interpolation (.string "a\\")).print) ≠
        .ok (interpolation (.string "a\\"))) ∧
    ((interpolation (.path (.parse "else"))).Normal ∧
      Program.parse (String.ofList (interpolation (.path (.parse "else"))).print) ≠
        .ok (interpolation (.path (.parse "else")))) ∧
    ((interpolation (.path (.parse "#a"))).Normal ∧
      Program.parse (String.ofList (interpolation (.path (.parse "#a"))).print) ≠
        .ok (interpolation (.path (.parse "#a")))) ∧
    ((interpolation (.call (.parse "f") [] [])).Normal ∧
      Program.parse (String.ofList (interpolation (.call (.parse "f") [] [])).print) ≠
        .ok (interpolation (.call (.parse "f") [] []))) ∧
    (Program.Normal ⟨[], ["a"]⟩ ∧
      Program.parse (String.ofList (Program.print ⟨[], ["a"]⟩)) ≠ .ok ⟨[], ["a"]⟩) ∧
    (namedInverse.Normal ∧
      Program.parse (String.ofList namedInverse.print) ≠ .ok namedInverse) ∧
    (Program.Normal ⟨tower 257, []⟩ ∧
      Program.parse (String.ofList (Program.print ⟨tower 257, []⟩)) ≠ .ok ⟨tower 257, []⟩) := by
  have hpath : ∀ s : String, IsWord s.toList → isLiteralWord s.toList = false →
      Expr.All Expr.Normal (.path (.parse s)) := by
    intro s hw hr
    simp only [Expr.All, Expr.Normal]
    exact Path.normal_parse hw hr
  have hcall : Expr.All Expr.Normal (.call (.parse "f") [] []) := by
    simp only [Expr.All, Expr.Normal, Expr.AllParams, Expr.AllHash]
    exact ⟨⟨Path.normal_parse (by decide) (by decide), by simp⟩, trivial, trivial⟩
  refine ⟨⟨interpolation_normal ?_, ne_ok_of_isNone (by decide +kernel)⟩,
    ⟨interpolation_normal (hpath _ (by decide) (by decide)), ne_ok_of_isNone (by decide +kernel)⟩,
    ⟨interpolation_normal (hpath _ (by decide) (by decide)), ne_ok_of_isNone (by decide +kernel)⟩,
    ⟨interpolation_normal hcall, ne_ok_of_isNone (by decide +kernel)⟩,
    ⟨⟨trivial, trivial⟩, ?_⟩, ⟨namedInverse_normal, ?_⟩,
    ⟨trivial, tower_normal 257⟩, tower_not_read_back (by decide)⟩
  · simp only [Expr.All, Expr.Normal]
  · intro h
    have hnames : (Program.parse (String.ofList (Program.print ⟨[], ["a"]⟩))).toOption.map
        (·.blockParams) = some [] := by decide +kernel
    rw [h] at hnames
    cases hnames
  · intro h
    have hnames : (Program.parse (String.ofList namedInverse.print)).toOption.map inverseNames =
        some [] := by decide +kernel
    rw [h] at hnames
    cases hnames

end Program
end Stencil.Handlebars
