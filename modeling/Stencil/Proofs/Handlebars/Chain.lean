import Stencil.Proofs.Handlebars.Locality
import Stencil.Proofs.Handlebars.Naming
import Stencil.Proofs.Handlebars.Occurrence

/-!
# Chained inverses

An `else` with a call behind it says that the inverse of the innermost block is
one more block, which is closed together with it. The same program can be
written with an `else`, an opening tag and a closing tag of its own for that
block. Reading the two templates, the block stands at the same place, and only
whether it has a closing tag of its own is different.
-/

namespace Stencil.Handlebars

open Text (Position)

namespace Tag

/-- A plain tag ends at the first closing braces outside of strings. -/
theorem cutOutside_of_readable {i : List Char} (h : (ofInner i).Readable) (rest : List Char) :
    Text.cutOutside closingBraces .outside (i ++ closingBraces ++ rest) = some (i, rest) ∧
      i.getLast? ≠ some '~' := by
  obtain ⟨own, hlexeme, hread⟩ := h
  rw [lexeme_ofInner, inBraces, List.append_assoc] at hlexeme
  obtain rfl := List.append_cancel_left hlexeme
  have hplain := hread rest
  unfold read at hplain
  split at hplain
  · cases hplain
  · next form right after hform =>
    obtain ⟨htag, rfl⟩ := Prod.mk.inj (Except.ok.inj hplain)
    obtain ⟨hleft, rfl, rfl⟩ := Tag.mk.inj htag
    rw [dropTilde_of_head? (head?_of_dropTilde hleft)] at hform
    obtain ⟨whole, hcut, hdrop⟩ := plain_of_readForm hform
    unfold dropTildeEnd at hdrop
    split at hdrop
    · cases hdrop
    · next hlast =>
      cases hdrop
      exact ⟨hcut, hlast⟩

end Tag

section
variable {g call : List Char} {opening : Opening}

theorem Directive.trimEnd_of_chain
    (hchain : ofTag (.ofInner ("else".toList ++ g)) = .ok (.chain call)) :
    Text.trimEnd g = call ∧ ∃ c rest, call = c :: rest ∧ Text.isBlank c = true := by
  have hplain : ofPlain (Text.trim ("else".toList ++ g)) = .ok (.chain call) := hchain
  obtain ⟨c, rest, rfl, hblank, htrim⟩ := chained?_eq_some (chained?_of_ofPlain hplain)
  refine ⟨?_, c, rest, rfl, hblank⟩
  have hstart : Text.trimStart ("else".toList ++ g) = "else".toList ++ g :=
    Text.trimStart_eq_self (by decide)
  rw [Text.trim, hstart] at htrim
  rw [Text.trimEnd_append] at htrim
  split at htrim
  · have hword : Text.trimEnd "else".toList = "else".toList := by decide
    rw [hword] at htrim
    simp at htrim
  · exact List.append_cancel_left htrim

/-- The same call opens a block of its own. -/
theorem Directive.ofTag_opening_of_chain
    (hchain : ofTag (.ofInner ("else".toList ++ g)) = .ok (.chain call))
    (hopening : Opening.parse call = .ok opening) :
    ofTag (.ofInner ('#' :: g)) = .ok (.opening opening) := by
  obtain ⟨hg, c, rest, rfl, hblank⟩ := trimEnd_of_chain hchain
  change ofPlain (Text.trim ('#' :: g)) = _
  rw [Text.trim_cons_of_not_blank (by decide), hg, ofPlain, ofOpening, hopening]
  · rfl
  all_goals
    rintro t ht
    cases ht
    exact absurd hblank (by decide)

variable (hread : (Tag.ofInner ("else".toList ++ g)).Readable)
variable (hchain : Directive.ofTag (.ofInner ("else".toList ++ g)) = .ok (.chain call))
include hread

theorem Tag.cutOutside_of_else (rest : List Char) :
    Text.cutOutside closingBraces .outside (g ++ closingBraces ++ rest) = some (g, rest) := by
  have hcut := (cutOutside_of_readable hread rest).1
  rw [closingBraces, List.append_assoc, List.append_assoc,
    Text.cutOutside_plain_append (IsWord.plain (by decide))] at hcut
  obtain ⟨⟨before, after⟩, hrest, hpair⟩ := Option.map_eq_some_iff.mp hcut
  obtain ⟨hbefore, rfl⟩ := Prod.mk.inj hpair
  obtain rfl := List.append_cancel_left hbefore
  rwa [closingBraces, List.append_assoc]

include hchain

theorem Tag.readable_opening : (ofInner ('#' :: g)).Readable := by
  obtain ⟨hg, c, rest, rfl, -⟩ := Directive.trimEnd_of_chain hchain
  have hne : g ≠ [] := by
    rintro rfl
    cases hg
  have hlast : ('#' :: g).getLast? ≠ some '~' := by
    have helse := (cutOutside_of_readable hread []).2
    rw [List.getLast?_append_of_ne_nil _ hne] at helse
    rwa [← List.singleton_append, List.getLast?_append_of_ne_nil _ hne]
  apply readable_ofInner
  intro rest
  apply read_plain (by decide) (by decide) (by decide) hlast
  have hsign : IsWord ['#'] := by decide
  have hcut := Text.cutOutside_plain_append hsign.plain (g ++ closingBraces ++ rest)
  have helse := cutOutside_of_else hread rest
  rw [closingBraces] at hcut helse
  rw [helse] at hcut
  exact hcut

/-- The closing tag of a block that is chained can name it. -/
theorem Opening.canClose_of_chain (hopening : parse call = .ok opening) :
    CanClose opening.helper.spelling.toList := by
  apply canClose_parse hopening
  obtain ⟨hg, -⟩ := Directive.trimEnd_of_chain hchain
  obtain ⟨t, ht⟩ := Text.isPrefix_trimEnd g
  have hunclosed := Text.unclosed_of_cutOutside (Tag.cutOutside_of_else hread [])
  rw [← ht, hg] at hunclosed
  exact (Text.unclosed_append hunclosed).1

end

/-- The number of open blocks with a closing tag of their own behind a tag that asks for this,
where `level` of them are open before it. Blocks that stand around these are not to be closed. -/
def Directive.level? (level : Nat) : Directive → Option Nat
  | opening _ => some (level + 1)
  | closing _ => if level = 0 then none else some (level - 1)
  | _ => some level

def levelBehind (level : Nat) : List Tag → Option Nat
  | [] => some level
  | t :: tags =>
    match Directive.ofTag t with
    | .error _ => none
    | .ok d => (d.level? level).bind fun next => levelBehind next tags

/-- The open blocks of two readings inside the same blocks. One block is chained in the first
reading and has a closing tag of its own in the second. The blocks in that one are the same,
`level` of them with a closing tag of their own, wherever they were opened. -/
inductive Shifted (opening : Opening) (outer : List OpenBlock) :
    Nat → List OpenBlock → List OpenBlock → Prop
  | here (position position' : Position) {main : Option Program}
      (hmain : ∀ program ∈ main, program.blockParams = opening.blockParams) :
      Shifted opening outer 0 (⟨position, opening, main, true, []⟩ :: outer)
        (⟨position', opening, main, false, []⟩ :: outer)
  | chained {level : Nat} {blocks blocks' : List OpenBlock} (position position' : Position)
      (inner : Opening) (main : Option Program) (before : List Statement)
      (around : Shifted opening outer level blocks blocks') :
      Shifted opening outer level (⟨position, inner, main, true, before⟩ :: blocks)
        (⟨position', inner, main, true, before⟩ :: blocks')
  | nested {level : Nat} {blocks blocks' : List OpenBlock} (position position' : Position)
      (inner : Opening) (main : Option Program) (before : List Statement)
      (around : Shifted opening outer level blocks blocks') :
      Shifted opening outer (level + 1) (⟨position, inner, main, false, before⟩ :: blocks)
        (⟨position', inner, main, false, before⟩ :: blocks')

namespace Shifted

open Nesting (step_opening_eq_ok invert_eq_ok step_chain_eq_ok apply_eq_ok run_tag_eq_ok)

section
variable {opening : Opening} {outer blocks blocks' : List OpenBlock} {level next : Nat}
variable {current : List Statement} {m : Nesting} (h : Shifted opening outer level blocks blocks')
include h

theorem invert (hinvert : (Nesting.mk current blocks).invert = .ok m) :
    ∃ after, (Nesting.mk current blocks').invert = .ok ⟨m.current, after⟩ ∧
      Shifted opening outer level m.blocks after := by
  obtain ⟨b, rest, hblocks, hnone, rfl⟩ := invert_eq_ok.mp hinvert
  cases h with
  | here position position' hmain =>
    cases hblocks
    exact ⟨_, invert_eq_ok.mpr ⟨_, _, rfl, hnone, rfl⟩, .here position position' (by simp)⟩
  | chained position position' inner main before around =>
    cases hblocks
    exact ⟨_, invert_eq_ok.mpr ⟨_, _, rfl, hnone, rfl⟩,
      .chained position position' inner _ before around⟩
  | nested position position' inner main before around =>
    cases hblocks
    exact ⟨_, invert_eq_ok.mpr ⟨_, _, rfl, hnone, rfl⟩,
      .nested position position' inner _ before around⟩

/-- A closing tag for a block inside closes it in both readings. -/
theorem close {name : String} (hlevel : level = next + 1)
    (hclose : Nesting.close name current blocks = .ok m) :
    ∃ after, Nesting.close name current blocks' = .ok ⟨m.current, after⟩ ∧
      Shifted opening outer next m.blocks after := by
  induction h generalizing current with
  | here position position' hmain => cases hlevel
  | chained position position' inner main before around ih =>
    rw [Nesting.close, if_pos rfl] at hclose ⊢
    exact ih hlevel hclose
  | nested position position' inner main before around ih =>
    cases hlevel
    simp only [Nesting.close, Bool.false_eq_true, if_false] at hclose ⊢
    split at hclose
    · next hname =>
      cases hclose
      exact ⟨_, if_pos hname, around⟩
    · cases hclose

/-- The closing tag of the whole chain closes the block in the first reading. In the second one
this takes the block's own closing tag before. -/
theorem close_here {name : String} (hlevel : level = 0)
    (hclose : Nesting.close name current blocks = .ok m) :
    ∃ program inverse,
      Nesting.close opening.helper.spelling current blocks' =
        .ok ⟨[.block opening.helper opening.args program inverse], outer⟩ ∧
      Nesting.close name [.block opening.helper opening.args program inverse] outer = .ok m ∧
      program.blockParams = opening.blockParams := by
  induction h generalizing current with
  | @here position position' main hmain =>
    rw [Nesting.close, if_pos rfl] at hclose
    cases main with
    | none =>
      exact ⟨_, _, by simp [Nesting.close, OpenBlock.name, OpenBlock.complete], hclose, rfl⟩
    | some main =>
      exact ⟨_, _, by simp [Nesting.close, OpenBlock.name, OpenBlock.complete], hclose,
        hmain main rfl⟩
  | chained position position' inner main before around ih =>
    rw [Nesting.close, if_pos rfl] at hclose ⊢
    exact ih hlevel hclose
  | nested => cases hlevel

/-- The second reading goes on like the first, unless it is refused for its depth. -/
theorem step {position : Position} {d : Directive} (hlevel : d.level? level = some next)
    (hstep : (Nesting.mk current blocks).step position d = .ok m) (position' : Position) :
    ∃ after, Shifted opening outer next m.blocks after ∧
      ((Nesting.mk current blocks').step position' d = .ok ⟨m.current, after⟩ ∨
        (Nesting.mk current blocks').step position' d = .error (.tooDeep maxNesting)) := by
  cases d with
  | comment text =>
    cases hlevel
    cases hstep
    exact ⟨blocks', h, .inl rfl⟩
  | mustache head args escaped =>
    cases hlevel
    cases hstep
    exact ⟨blocks', h, .inl rfl⟩
  | embed name args =>
    cases hlevel
    cases hstep
    exact ⟨blocks', h, .inl rfl⟩
  | opening inner =>
    cases hlevel
    obtain ⟨-, rfl⟩ := step_opening_eq_ok.mp hstep
    refine ⟨_, .nested position position' inner none current h, ?_⟩
    by_cases hdepth : maxNesting ≤ (Nesting.mk current blocks').depth
    · exact .inr (if_pos hdepth)
    · exact .inl (step_opening_eq_ok.mpr ⟨Nat.not_le.mp hdepth, rfl⟩)
  | otherwise =>
    cases hlevel
    obtain ⟨after, hinvert, hafter⟩ := h.invert hstep
    exact ⟨after, hafter, .inl hinvert⟩
  | chain call =>
    cases hlevel
    obtain ⟨inverted, inner, hinvert, hinner, rfl⟩ := step_chain_eq_ok.mp hstep
    obtain ⟨after, hinvert', hafter⟩ := h.invert hinvert
    exact ⟨_, .chained position position' inner none inverted.current hafter,
      .inl (step_chain_eq_ok.mpr ⟨_, inner, hinvert', hinner, rfl⟩)⟩
  | closing name =>
    rw [Directive.level?] at hlevel
    split at hlevel
    · cases hlevel
    · next hpositive =>
      have hnext : level = next + 1 := by
        have := Option.some.inj hlevel
        omega
      obtain ⟨after, hclose, hafter⟩ := h.close hnext hstep
      exact ⟨after, hafter, .inl hclose⟩

end

variable {opening : Opening} {outer : List OpenBlock}

/-- The two readings go on alike over tags that close only blocks opened among them. -/
theorem run {blocks blocks' : List OpenBlock} {level next : Nat} {current : List Statement}
    {m : Nesting} {segments segments' : List Segment}
    (h : Shifted opening outer level blocks blocks')
    (halike : List.Forall₂ Segment.Alike segments segments')
    (hlevel : levelBehind level (Segment.tags segments) = some next)
    (hrun : (Nesting.mk current blocks).run segments = .ok m) :
    ∃ after, Shifted opening outer next m.blocks after ∧
      ((Nesting.mk current blocks').run segments' = .ok ⟨m.current, after⟩ ∨
        ∃ position, (Nesting.mk current blocks').run segments' =
          .error ⟨position, .tooDeep maxNesting⟩) := by
  -- The first reading keeps its relation to the blocks of the second beyond a refusal.
  induction halike generalizing level blocks blocks' current with
  | nil =>
    cases hlevel
    cases hrun
    exact ⟨blocks', h, .inl rfl⟩
  | @cons _ _ segments segments' hfirst hrest ih =>
    cases hfirst with
    | text run => exact ih h hlevel hrun
    | broken p q fault => cases hrun
    | tag p q t =>
      obtain ⟨middle, hmiddle, hmore⟩ := run_tag_eq_ok hrun
      obtain ⟨d, hd, hstep⟩ := apply_eq_ok.mp hmiddle
      have htags : Segment.tags (.tag p t :: segments) = t :: Segment.tags segments := rfl
      rw [htags, levelBehind, hd] at hlevel
      obtain ⟨between, hbetween, hlevel⟩ := Option.bind_eq_some_iff.mp hlevel
      obtain ⟨inside, hinside, hstep'⟩ := h.step hbetween hstep q
      obtain ⟨after, hafter, hrun'⟩ := ih hinside hlevel hmore
      refine ⟨after, hafter, ?_⟩
      obtain hstep' | hdeep := hstep'
      · rwa [Nesting.run_of_step hd hstep']
      · exact .inr ⟨q, Nesting.run_of_fault hd hdeep segments'⟩

end Shifted

namespace Nesting

/-- From a chained `else` to the tag that closes the chain. -/
theorem exists_run_chain {n m : Nesting} {chain closing : Tag} {call : List Char}
    {opening : Opening} {name : String} {inner back : List Segment} {p q : Position}
    (hchain : Directive.ofTag chain = .ok (.chain call))
    (hopening : Opening.parse call = .ok opening)
    (hclosing : Directive.ofTag closing = .ok (.closing name))
    (hrun : n.run (.tag p chain :: (inner ++ .tag q closing :: back)) = .ok m) :
    ∃ inverted last next : Nesting, n.invert = .ok inverted ∧
      (inverted.enter p opening true).run inner = .ok last ∧
      close name last.current last.blocks = .ok next ∧ next.run back = .ok m := by
  obtain ⟨entered, henter, hrun⟩ := step_of_run hchain hrun
  obtain ⟨inverted, opening', hinvert, hopening', rfl⟩ := step_chain_eq_ok.mp henter
  cases hopening.symm.trans hopening'
  obtain ⟨last, hinner, hrun⟩ := exists_of_run_append hrun
  obtain ⟨next, hclose, hback⟩ := step_of_run hclosing hrun
  exact ⟨inverted, last, next, hinvert, hinner, hclose, hback⟩

/-- A block that is chained, and the same block with a closing tag of its own. -/
theorem shifted_enter {n inverted : Nesting} (hinvert : n.invert = .ok inverted)
    (p q : Position) (opening : Opening) :
    Shifted opening inverted.blocks 0 (inverted.enter p opening true).blocks
      (inverted.enter q opening false).blocks := by
  obtain ⟨b, blocks, -, -, rfl⟩ := invert_eq_ok.mp hinvert
  exact .here p q (by simp)

/-- From an `else` and an opening tag to the closing tags of that block and of the one around
it. -/
theorem run_nested {n inverted outside next m : Nesting} {opening : Opening} {name : String}
    {current : List Statement} {blocks : List OpenBlock} {first second third fourth : Tag}
    {q : Position} {inner back : List Segment}
    (hfirst : Directive.ofTag first = .ok .otherwise)
    (hsecond : Directive.ofTag second = .ok (.opening opening))
    (hthird : Directive.ofTag third = .ok (.closing opening.helper.spelling))
    (hfourth : Directive.ofTag fourth = .ok (.closing name))
    (hinvert : n.invert = .ok inverted)
    (hinner : (inverted.enter q opening false).run inner = .ok ⟨current, blocks⟩ ∨
      ∃ position, (inverted.enter q opening false).run inner =
        .error ⟨position, .tooDeep maxNesting⟩)
    (hown : close opening.helper.spelling current blocks = .ok outside)
    (hclose : close name outside.current outside.blocks = .ok next)
    (hback : next.run back = .ok m) (p r s : Position) :
    n.run (.tag p first :: .tag q second ::
        (inner ++ .tag r third :: .tag s fourth :: back)) = .ok m ∨
      ∃ position, n.run (.tag p first :: .tag q second ::
        (inner ++ .tag r third :: .tag s fourth :: back)) =
          .error ⟨position, .tooDeep maxNesting⟩ := by
  rw [run_of_step hfirst hinvert]
  by_cases hdepth : inverted.depth < maxNesting
  · rw [run_of_step hsecond (step_opening_eq_ok.mpr ⟨hdepth, rfl⟩)]
    obtain hinner | ⟨position, hdeep⟩ := hinner
    · left
      have hstep : (Nesting.mk current blocks).step r (.closing opening.helper.spelling) =
          .ok outside := hown
      have hstep' : outside.step s (.closing name) = .ok next := hclose
      rw [run_append_of_ok hinner, run_of_step hthird hstep, run_of_step hfourth hstep', hback]
    · right
      rw [run_append, hdeep]
      exact ⟨position, rfl⟩
  · exact .inr ⟨q, run_of_fault hsecond (if_pos (Nat.not_lt.mp hdepth)) _⟩

end Nesting

/-- The parts of a template in which an `else` goes on with a call, and a later tag closes the
whole chain. -/
structure ChainText where
  before : List Char
  /-- The text behind the word `else`. -/
  call : List Char
  /-- The text between the two tags. -/
  within : List Char
  /-- The text behind the slash of the closing tag. -/
  name : List Char
  after : List Char

namespace ChainText

def chained (t : ChainText) : List Char :=
  t.before ++ inBraces ("else".toList ++ t.call) ++ t.within ++ inBraces ('/' :: t.name) ++ t.after

/-- The template with an `else` and a block, which has a closing tag of its own. -/
def nested (t : ChainText) (own : String) : List Char :=
  t.before ++ inBraces "else".toList ++ inBraces ('#' :: t.call) ++ t.within ++
    inBraces ('/' :: own.toList ++ [' ']) ++ inBraces ('/' :: t.name) ++ t.after

/-- How the template with the chained `else` is read: its two tags are found where they stand, the
`else` opens a block, and the blocks opened between the two tags are the ones that are closed
there. -/
structure Reads (t : ChainText) (front inner back : List Segment) (opening : Opening) : Prop where
  scan : Segment.scan .start t.chained =
    front ++ .tag (Position.start.after t.before) (.ofInner ("else".toList ++ t.call)) ::
      (inner ++ .tag (Position.start.after
        (t.before ++ inBraces ("else".toList ++ t.call) ++ t.within)) (.ofInner ('/' :: t.name)) ::
          back)
  chain : ∃ call, Directive.ofTag (.ofInner ("else".toList ++ t.call)) = .ok (.chain call) ∧
    Opening.parse call = .ok opening
  level : levelBehind 0 (Segment.tags inner) = some 0

namespace Reads

variable {t : ChainText} {front inner back : List Segment} {opening : Opening}
variable (h : t.Reads front inner back opening)
include h

/-- What leads to the two tags, and that these can be read anywhere. -/
theorem leads : ∃ here there : Position,
    Segment.Leads .start t.before front ∧ Segment.Leads here t.within inner ∧
      (Tag.ofInner ("else".toList ++ t.call)).Readable ∧ (Tag.ofInner ('/' :: t.name)).Readable ∧
      back = Segment.scan there t.after := by
  have hscan := h.scan
  have htext : t.chained = t.before ++ (Tag.ofInner ("else".toList ++ t.call)).lexeme ++
      (t.within ++ (Tag.ofInner ('/' :: t.name)).lexeme ++ t.after) := by
    simp [chained, Tag.lexeme_ofInner]
  rw [htext] at hscan
  obtain ⟨hfront, helse, hmore⟩ := Segment.leads_of_scan hscan
  rw [Position.after_append, Position.after_append, ← Tag.lexeme_ofInner] at hmore
  obtain ⟨hinner, hclosing, hback⟩ := Segment.leads_of_scan hmore.symm
  exact ⟨_, _, hfront, hinner, helse, hclosing, hback⟩

/-- The block can be closed by its name. -/
theorem canClose : CanClose opening.helper.spelling.toList := by
  obtain ⟨here, there, hfront, hinner, helse, hclosing, hback⟩ := h.leads
  obtain ⟨call, hchain, hopening⟩ := h.chain
  exact Opening.canClose_of_chain helse hchain hopening

theorem ofSource_chained : ∃ p q, Segment.ofSource t.chained = Segment.tidy false front ++
    .tag p (.ofInner ("else".toList ++ t.call)) :: (Segment.tidy false inner ++
      .tag q (.ofInner ('/' :: t.name)) :: Segment.tidy false back) := by
  rw [Segment.ofSource, h.scan, Segment.tidy_append_tag rfl]
  exact ⟨_, _, congrArg (_ ++ _ :: ·) (Segment.tidy_append_tag rfl _ _ _ _)⟩

/-- The other template holds the same segments around its tags. -/
theorem ofSource_nested : ∃ p q r s inner' back',
    Segment.ofSource (t.nested opening.helper.spelling) = Segment.tidy false front ++
      .tag p (.ofInner "else".toList) :: .tag q (.ofInner ('#' :: t.call)) :: (inner' ++
        .tag r (.ofInner ('/' :: opening.helper.spelling.toList ++ [' '])) ::
          .tag s (.ofInner ('/' :: t.name)) :: back') ∧
    List.Forall₂ Segment.Alike (Segment.tidy false inner) inner' ∧
    List.Forall₂ Segment.Alike (Segment.tidy false back) back' := by
  obtain ⟨here, there, hfront, hinner, hread, hclosing, rfl⟩ := h.leads
  obtain ⟨call, hchain, hopening⟩ := h.chain
  have hopen : (Tag.ofInner ('#' :: t.call)).Readable := Tag.readable_opening hread hchain
  have helse : (Tag.ofInner "else".toList).Readable := Tag.readable_ofInner Tag.read_else
  have hown : (Tag.ofInner ('/' :: opening.helper.spelling.toList ++ [' '])).Readable :=
    Tag.readable_ofInner (Tag.read_closing h.canClose)
  have htext : t.nested opening.helper.spelling = t.before ++ (Tag.ofInner "else".toList).lexeme ++
      ([] ++ (Tag.ofInner ('#' :: t.call)).lexeme ++ (t.within ++
        (Tag.ofInner ('/' :: opening.helper.spelling.toList ++ [' '])).lexeme ++
          ([] ++ (Tag.ofInner ('/' :: t.name)).lexeme ++ t.after))) := by
    simp [nested, Tag.lexeme_ofInner]
  rw [Segment.ofSource, htext, hfront _ helse, Segment.leads_nil _ _ hopen,
    Segment.tidy_append_tag rfl]
  obtain ⟨inner', r, behind, more, htidy, halike, hmore⟩ := Segment.exists_tidy_scan hinner hown rfl
    ([] ++ (Tag.ofInner ('/' :: t.name)).lexeme ++ t.after) _
  rw [Segment.leads_nil _ _ hclosing] at hmore
  obtain ⟨s, back', rfl, hback⟩ := Segment.exists_of_alike_tag hmore
  refine ⟨_, _, r, s, inner', back', congrArg (_ ++ _ :: _ :: ·) htidy, halike, ?_⟩
  exact Segment.alike_trans (Segment.tidy_alike (Segment.scan_alike t.after there _) false) hback

end Reads

end ChainText

open Nesting in
/-- A chained `else` stands for an `else` and one block with a closing tag of its own: the other
spelling is read as the same program unless its blocks are nested too deeply. The inverse that the
`else` begins holds this block alone. -/
theorem Program.ofText_nested {t : ChainText} {front inner back : List Segment} {opening : Opening}
    {p : Program} (hreads : t.Reads front inner back opening) (hp : ofText t.chained = .ok p) :
    (ofText (t.nested opening.helper.spelling) = .ok p ∨
      ∃ position, ofText (t.nested opening.helper.spelling) =
        .error ⟨position, .tooDeep maxNesting⟩) ∧
    ∃ n b program inverse, Nesting.run {} (Segment.tidy false front) = .ok n ∧
      n.blocks.head? = some b ∧ program.blockParams = opening.blockParams ∧
      (Statement.block b.opening.helper b.opening.args ⟨n.current.reverse, b.opening.blockParams⟩
        (some (.ofBody [.block opening.helper opening.args program inverse]))).OccursIn p.body := by
  obtain ⟨call, hchain, hopening⟩ := hreads.chain
  obtain ⟨current, hrun, rfl⟩ := ofText_eq_ok_iff.mp hp
  obtain ⟨position, position', hsource⟩ := hreads.ofSource_chained
  rw [hsource] at hrun
  obtain ⟨n, hfront, hrun⟩ := exists_of_run_append hrun
  obtain ⟨inverted, last, next, hinvert, hinner, hclose, hback⟩ :=
    exists_run_chain hchain hopening (Directive.ofTag_slash t.name) hrun
  obtain ⟨p, q, r, s, inner', back', hnested, halike, hmore⟩ := hreads.ofSource_nested
  have hlevel : levelBehind 0 (Segment.tags (Segment.tidy false inner)) = some 0 := by
    rw [Segment.tags_tidy, hreads.level]
  -- At the end of the chain both readings have the same statements in the block, which is closed
  -- by the tag of the chain in the first one and by its own in the second.
  obtain ⟨after, hafter, hinner'⟩ :=
    (shifted_enter hinvert position q opening).run halike hlevel hinner
  obtain ⟨program, inverse, hown, houter, hparams⟩ := hafter.close_here rfl hclose
  constructor
  · have helse : Directive.ofTag (.ofInner "else".toList) = .ok .otherwise := Directive.ofTag_else
    obtain hrun' | ⟨position, hdeep⟩ := run_nested helse
      (Directive.ofTag_opening_of_chain hchain hopening) (Directive.ofTag_closing hreads.canClose)
      (Directive.ofTag_slash t.name) hinvert hinner' hown houter (run_alike hmore hback) p r s
    · left
      refine ofText_eq_ok_iff.mpr ⟨current, ?_, rfl⟩
      rw [hnested, run_append_of_ok hfront, hrun']
    · right
      refine ⟨position, ?_⟩
      rw [ofText, hnested, run_append_of_ok hfront, hdeep]
  · obtain ⟨b, blocks, hblocks, -, rfl⟩ := invert_eq_ok.mp hinvert
    refine ⟨n, b, program, inverse, hfront, ?_, hparams, occursIn_of_close houter hback⟩
    rw [hblocks]
    rfl

/-- A chain with a block in one of its branches, a further chained `else` and a last `else`. -/
def ChainText.longChain : ChainText where
  before := "\x7b\x7b#if a\x7d\x7dx".toList
  call := " if b".toList
  within := "\x7b\x7b#c\x7d\x7d\x7b\x7b/c\x7d\x7d".toList ++
    "\x7b\x7belse if d\x7d\x7d\x7b\x7belse\x7d\x7dy".toList
  name := "if".toList
  after := "z".toList

theorem ChainText.reads_longChain {opening : Opening}
    (h : Opening.parse longChain.call = .ok opening) :
    longChain.Reads [.tag ⟨1, 1⟩ (.ofInner "#if a".toList), .text ['x']]
      [.tag ⟨1, 24⟩ (.ofInner "#c".toList), .tag ⟨1, 30⟩ (.ofInner "/c".toList),
        .tag ⟨1, 36⟩ (.ofInner "else if d".toList), .tag ⟨1, 49⟩ (.ofInner "else".toList),
        .text ['y']] [.text ['z']] opening where
  scan := by decide +kernel
  chain := ⟨longChain.call, by rfl, h⟩
  level := by decide +kernel

theorem Program.ofText_nested_longChain :
    ∃ p, ofText ChainText.longChain.chained = .ok p ∧
      ofText (ChainText.longChain.nested "if") = .ok p := by
  have hchained : (ofText ChainText.longChain.chained).toOption.isSome = true := by
    decide +kernel
  have hnested : (ofText (ChainText.longChain.nested "if")).toOption.isSome = true := by
    decide +kernel
  have hname : (Opening.parse ChainText.longChain.call).toOption.map (·.helper.spelling) =
      some "if" := by
    decide +kernel
  cases hopening : Opening.parse ChainText.longChain.call with
  | error fault =>
    rw [hopening] at hname
    cases hname
  | ok opening =>
    cases hp : ofText ChainText.longChain.chained with
    | error e =>
      rw [hp] at hchained
      cases hchained
    | ok p =>
      have hspelling : opening.helper.spelling = "if" := by
        rw [hopening] at hname
        exact Option.some.inj hname
      have hsame := (ofText_nested (ChainText.reads_longChain hopening) hp).1
      rw [hspelling] at hsame
      refine ⟨p, rfl, hsame.resolve_right ?_⟩
      rintro ⟨position, hdeep⟩
      rw [hdeep] at hnested
      cases hnested

end Stencil.Handlebars
