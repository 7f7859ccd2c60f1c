import Stencil.Proofs.Handlebars.Signs

/-!
# The outline of a program

The statements of a program other than text, each before what it holds, are
the signs of the template in their order, without those that only close a block
or turn to its inverse. Signs alone tell which block is the innermost one at
any tag: the invariant of the reader ties its open blocks to the signs that
opened them, and what it has collected to the signs read so far.
-/

namespace Stencil.Handlebars

open Text (Position)

/-- A statement without the statements it holds; a block with or without an inverse. -/
inductive Heading
  | leaf (statement : Statement)
  | block (opening : Opening) (inverse : Bool)

mutual

/-- The headings of a statement other than text, its own first. -/
def Statement.outline : Statement → List Heading
  | .content _ => []
  | .comment text => [.leaf (.comment text)]
  | .mustache head args escaped => [.leaf (.mustache head args escaped)]
  | .block helper args ⟨body, blockParams⟩ inverse =>
    .block ⟨helper, args, blockParams⟩ inverse.isSome ::
      (outlineOf body ++ outlineOfInverse inverse)
  | .embed name args => [.leaf (.embed name args)]

def outlineOf : List Statement → List Heading
  | [] => []
  | s :: rest => s.outline ++ outlineOf rest

def outlineOfInverse : Option Program → List Heading
  | none => []
  | some ⟨body, _⟩ => outlineOf body

end

theorem outlineOf_append (body more : List Statement) :
    outlineOf (body ++ more) = outlineOf body ++ outlineOf more := by
  induction body with
  | nil => rfl
  | cons s body ih => rw [List.cons_append, outlineOf, outlineOf, ih, List.append_assoc]

/-- A statement that was added last comes last. -/
theorem outlineOf_reverse_cons (s : Statement) (body : List Statement) :
    outlineOf (s :: body).reverse = outlineOf body.reverse ++ s.outline := by
  rw [List.reverse_cons, outlineOf_append, outlineOf, outlineOf, List.append_nil]

theorem Says.outline_leaf {t : Tag} {s : Statement} (h : Says t (.leaf s)) :
    s.outline = [.leaf s] := by
  cases h <;> rw [Statement.outline]

namespace Sign

def isOpening : Sign → Bool
  | opening _ => true
  | _ => false

def isClosing : Sign → Bool
  | closing _ => true
  | _ => false

/-- Whether the innermost block turns to its inverse. -/
def isElse : Sign → Bool
  | chain _ => true
  | otherwise => true
  | _ => false

/-- The heading that a sign announces, given whether its block has an inverse. -/
def heading? (inverse : Bool) : Sign → Option Heading
  | leaf s => some (.leaf s)
  | opening o => some (.block o inverse)
  | chain o => some (.block o inverse)
  | _ => none

end Sign

/-- The sign of an open block, by its number, and the name that its closing tag repeats. A chained
block has no closing tag of its own. -/
structure OpenTag where
  number : Nat
  name : Option String
deriving Repr, DecidableEq

/-- The open blocks after one more sign, innermost first. A closing tag closes chained blocks
together with the block they continue. -/
def OpenTag.after (tags : List OpenTag) (number : Nat) : Sign → List OpenTag
  | .leaf _ => tags
  | .opening o => ⟨number, some o.helper.spelling⟩ :: tags
  | .chain _ => ⟨number, none⟩ :: tags
  | .otherwise => tags
  | .closing _ => (tags.dropWhile (·.name.isNone)).tail

def openTagsFrom : Nat → List OpenTag → List Sign → List OpenTag
  | _, tags, [] => tags
  | number, tags, sign :: signs => openTagsFrom (number + 1) (OpenTag.after tags number sign) signs

def openTags (signs : List Sign) : List OpenTag :=
  openTagsFrom 0 [] signs

/-- The number of the sign that opened the innermost block. -/
def innermost? (signs : List Sign) : Option Nat :=
  (openTags signs).head?.map (·.number)

def closingName? (signs : List Sign) : Option String :=
  (openTags signs).findSome? (·.name)

/-- The number of `else` tags, plain or chained, that come while the block of a sign is the
innermost one. -/
def elses (signs : List Sign) (number : Nat) : Nat :=
  (List.range signs.length).countP fun k =>
    (signs[k]?).any Sign.isElse && innermost? (signs.take k) = some number

def headingsFrom (inverted : Nat → Bool) : Nat → List Sign → List Heading
  | _, [] => []
  | number, sign :: signs =>
    (sign.heading? (inverted number)).toList ++ headingsFrom inverted (number + 1) signs

/-- The headings that signs announce. A block has an inverse if there is one `else` for it. -/
def headings (signs : List Sign) : List Heading :=
  headingsFrom (fun number => elses signs number = 1) 0 signs

theorem openTags_append (signs : List Sign) (sign : Sign) :
    openTags (signs ++ [sign]) = OpenTag.after (openTags signs) signs.length sign := by
  have hfrom : ∀ (number : Nat) (tags : List OpenTag) (signs : List Sign),
      openTagsFrom number tags (signs ++ [sign]) =
        OpenTag.after (openTagsFrom number tags signs) (number + signs.length) sign := by
    intro number tags signs
    induction signs generalizing number tags with
    | nil => rfl
    | cons first signs ih =>
      rw [List.cons_append, openTagsFrom, ih, openTagsFrom, List.length_cons]
      congr 1
      omega
  rw [openTags, hfrom, Nat.zero_add, openTags]

theorem elses_append (signs : List Sign) (sign : Sign) (number : Nat) :
    elses (signs ++ [sign]) number = elses signs number +
      if sign.isElse = true ∧ innermost? signs = some number then 1 else 0 := by
  have hold : (List.range signs.length).countP (fun k =>
      ((signs ++ [sign])[k]?).any Sign.isElse &&
        decide (innermost? ((signs ++ [sign]).take k) = some number)) = elses signs number := by
    apply List.countP_congr
    intro k hk
    have hk := List.mem_range.mp hk
    rw [List.getElem?_append_left hk, List.take_append_of_le_length (Nat.le_of_lt hk)]
  rw [elses, List.length_append, List.length_singleton, List.range_succ, List.countP_append, hold]
  simp [List.countP_cons]

section
variable {f g : Nat → Bool}

theorem headingsFrom_append (f : Nat → Bool) (number : Nat) (signs more : List Sign) :
    headingsFrom f number (signs ++ more) =
      headingsFrom f number signs ++ headingsFrom f (number + signs.length) more := by
  induction signs generalizing number with
  | nil => rfl
  | cons sign signs ih =>
    rw [List.cons_append, headingsFrom, ih, headingsFrom, List.append_assoc, List.length_cons]
    congr 3
    omega

theorem headingsFrom_congr {number : Nat} {signs : List Sign}
    (h : ∀ k, number ≤ k → k < number + signs.length → f k = g k) :
    headingsFrom f number signs = headingsFrom g number signs := by
  induction signs generalizing number with
  | nil => rfl
  | cons sign signs ih =>
    rw [List.length_cons] at h
    rw [headingsFrom, headingsFrom, h number (Nat.le_refl _) (by omega),
      ih fun k hle hlt => h k (by omega) (by omega)]

/-- The headings before a sign, its own, and those behind it. -/
theorem headingsFrom_split {signs : List Sign} {number : Nat} {sign : Sign}
    (h : signs[number]? = some sign) :
    headingsFrom f 0 signs = headingsFrom f 0 (signs.take number) ++
      ((sign.heading? (f number)).toList ++
        headingsFrom f (number + 1) (signs.drop (number + 1))) := by
  obtain ⟨hlt, hget⟩ := List.getElem?_eq_some_iff.mp h
  have hsplit : signs = signs.take number ++ sign :: signs.drop (number + 1) := by
    rw [← hget, List.getElem_cons_drop, List.take_append_drop]
  conv => lhs; rw [hsplit]
  rw [headingsFrom_append, List.length_take, Nat.min_eq_left (Nat.le_of_lt hlt), Nat.zero_add,
    headingsFrom]

end

def outlineBehind : List OpenBlock → List Heading
  | [] => []
  | b :: blocks =>
    outlineBehind blocks ++ outlineOf b.before.reverse ++
      .block b.opening b.main.isSome :: outlineOfInverse b.main

def Nesting.outline (n : Nesting) : List Heading :=
  outlineBehind n.blocks ++ outlineOf n.current.reverse

/-- A block whose main program introduces the names of its opening tag. -/
def OpenBlock.Faithful (b : OpenBlock) : Prop :=
  ∀ main ∈ b.main, main.blockParams = b.opening.blockParams

theorem OpenBlock.outline_complete {b : OpenBlock} (h : b.Faithful) (current : List Statement) :
    (b.complete current).outline =
      .block b.opening b.main.isSome :: (outlineOfInverse b.main ++ outlineOf current.reverse) := by
  obtain ⟨position, ⟨helper, args, blockParams⟩, main, chained, before⟩ := b
  cases main with
  | none =>
    rw [complete, Statement.outline, outlineOfInverse, List.append_nil]
    rfl
  | some main =>
    obtain ⟨body, params⟩ := main
    have hparams : params = blockParams := h ⟨body, params⟩ rfl
    subst hparams
    rw [complete, Statement.outline, Program.ofBody, outlineOfInverse, outlineOfInverse]
    rfl

/-- A block that the sign of a tag has opened. -/
structure Opened (signs : List Sign) (counts : Nat → Nat) (b : OpenBlock)
    (outer : List OpenBlock) (tag : OpenTag) : Prop where
  name : tag.name = if b.chained then none else some b.name
  sign : ∃ sign, signs[tag.number]? = some sign ∧
    ∀ inverse, sign.heading? inverse = some (.block b.opening inverse)
  before : outlineBehind outer ++ outlineOf b.before.reverse =
    headingsFrom (fun k => counts k = 1) 0 (signs.take tag.number)
  count : counts tag.number = if b.main.isSome then 1 else 0
  faithful : b.Faithful

inductive Follows (signs : List Sign) (counts : Nat → Nat) : List OpenBlock → List OpenTag → Prop
  | nil : Follows signs counts [] []
  | cons {b : OpenBlock} {blocks : List OpenBlock} {tag : OpenTag} {tags : List OpenTag}
      (hopened : Opened signs counts b blocks tag)
      (houter : ∀ other ∈ tags, other.number < tag.number)
      (hrest : Follows signs counts blocks tags) : Follows signs counts (b :: blocks) (tag :: tags)

/-- What a reader has collected is what the signs announce, where a count of `else` tags goes with
each number. -/
structure Tracks (signs : List Sign) (counts : Nat → Nat) (tags : List OpenTag) (n : Nesting) :
    Prop where
  outline : n.outline = headingsFrom (fun k => counts k = 1) 0 signs
  follows : Follows signs counts n.blocks tags

section
variable {signs : List Sign} {counts : Nat → Nat} {tags : List OpenTag} {n m : Nesting}

theorem Opened.lt_length {b : OpenBlock} {outer : List OpenBlock} {tag : OpenTag}
    (h : Opened signs counts b outer tag) : tag.number < signs.length := by
  obtain ⟨sign, hsign, -⟩ := h.sign
  exact (List.getElem?_eq_some_iff.mp hsign).1

theorem Opened.append {b : OpenBlock} {outer : List OpenBlock} {tag : OpenTag}
    (h : Opened signs counts b outer tag) (more : List Sign) :
    Opened (signs ++ more) counts b outer tag where
  name := h.name
  sign := by
    obtain ⟨sign, hsign, hheading⟩ := h.sign
    exact ⟨sign, by rw [List.getElem?_append_left h.lt_length, hsign], hheading⟩
  before := by rw [List.take_append_of_le_length (Nat.le_of_lt h.lt_length), h.before]
  count := h.count
  faithful := h.faithful

theorem Follows.append {blocks : List OpenBlock} (h : Follows signs counts blocks tags)
    (more : List Sign) : Follows (signs ++ more) counts blocks tags := by
  induction h with
  | nil => exact .nil
  | cons hopened houter hrest ih => exact .cons (hopened.append more) houter ih

theorem Follows.lt_length {blocks : List OpenBlock} (h : Follows signs counts blocks tags) :
    ∀ tag ∈ tags, tag.number < signs.length := by
  induction h with
  | nil => exact fun _ h => nomatch h
  | cons hopened houter hrest ih =>
    exact List.forall_mem_cons.mpr ⟨hopened.lt_length, ih⟩

theorem Follows.eq_nil (h : Follows signs counts [] tags) : tags = [] := by
  cases h
  rfl

theorem Opened.congr {other : Nat → Nat} {b : OpenBlock} {outer : List OpenBlock} {tag : OpenTag}
    (h : Opened signs counts b outer tag) (heq : ∀ k ≤ tag.number, other k = counts k) :
    Opened signs other b outer tag where
  name := h.name
  sign := h.sign
  before := by
    rw [h.before]
    apply headingsFrom_congr
    intro k _ hk
    rw [List.length_take] at hk
    rw [heq k (by omega)]
  count := by rw [heq _ (Nat.le_refl _), h.count]
  faithful := h.faithful

theorem Follows.congr {other : Nat → Nat} {blocks : List OpenBlock}
    (h : Follows signs counts blocks tags)
    (heq : ∀ tag ∈ tags, ∀ k ≤ tag.number, other k = counts k) :
    Follows signs other blocks tags := by
  induction h with
  | nil => exact .nil
  | cons hopened houter hrest ih =>
    rw [List.forall_mem_cons] at heq
    exact .cons (hopened.congr heq.1) houter (ih heq.2)

theorem Nesting.outline_push (n : Nesting) (s : Statement) :
    (n.push s).outline = n.outline ++ s.outline := by
  simp only [outline, push, outlineOf_reverse_cons, List.append_assoc]

theorem Nesting.outline_enter (n : Nesting) (position : Position) (o : Opening) (chained : Bool) :
    (n.enter position o chained).outline = n.outline ++ [.block o false] := by
  simp only [outline, enter, outlineBehind, List.reverse_nil, outlineOf, outlineOfInverse,
    List.append_nil, Option.isSome_none]

namespace Tracks

variable (h : Tracks signs counts tags n)
include h

/-- A sign that announces nothing. -/
theorem skip {sign : Sign} (hnone : ∀ inverse, sign.heading? inverse = none) :
    Tracks (signs ++ [sign]) counts tags n where
  outline := by
    rw [h.outline, headingsFrom_append, headingsFrom, hnone, headingsFrom]
    exact (List.append_nil _).symm
  follows := h.follows.append _

theorem leaf {s : Statement} (hs : s.outline = [.leaf s]) :
    Tracks (signs ++ [.leaf s]) counts tags (n.push s) where
  outline := by
    rw [Nesting.outline_push, h.outline, headingsFrom_append, hs]
    rfl
  follows := h.follows.append _

theorem content (text : String) : Tracks signs counts tags (n.push (.content text)) where
  outline := by
    rw [Nesting.outline_push, h.outline, Statement.outline, List.append_nil]
  follows := h.follows

theorem enter {sign : Sign} (position : Position) {o : Opening} (chained : Bool)
    (hsign : ∀ inverse, sign.heading? inverse = some (.block o inverse))
    (hcount : counts signs.length = 0) :
    Tracks (signs ++ [sign]) counts
      (⟨signs.length, if chained then none else some o.helper.spelling⟩ :: tags)
      (n.enter position o chained) where
  outline := by
    rw [Nesting.outline_enter, h.outline, headingsFrom_append, headingsFrom, hsign, Nat.zero_add,
      hcount]
    rfl
  follows := by
    refine .cons ⟨rfl, ⟨sign, ?_, hsign⟩, ?_, hcount, fun _ h => nomatch h⟩ h.follows.lt_length
      (h.follows.append _)
    · exact List.getElem?_concat_length
    · rw [List.take_left' rfl]
      exact h.outline

/-- Turning to the inverse shows in the heading of the innermost block and nowhere else. -/
theorem invert (hinvert : n.invert = .ok m) :
    ∃ tag outer, tags = tag :: outer ∧
      Tracks signs (fun k => counts k + if k = tag.number then 1 else 0) tags m := by
  obtain ⟨current, blocks⟩ := n
  obtain ⟨houtline, hfollows⟩ := h
  cases hfollows with
  | nil => cases hinvert
  | @cons b blocks tag outer hopened houter hrest =>
    unfold Nesting.invert at hinvert
    cases hmain : b.main with
    | some main => simp [hmain] at hinvert
    | none =>
      simp only [hmain, Except.ok.injEq] at hinvert
      subst hinvert
      have hzero : counts tag.number = 0 := by rw [hopened.count, hmain]; rfl
      obtain ⟨sign, hsign, hheading⟩ := hopened.sign
      have hbefore : ∀ k < tag.number,
          (counts k + if k = tag.number then 1 else 0) = counts k := by
        intro k hk
        rw [if_neg (Nat.ne_of_lt hk), Nat.add_zero]
      have hfront : headingsFrom (fun k => (counts k + if k = tag.number then 1 else 0) = 1) 0
          (signs.take tag.number) = outlineBehind blocks ++ outlineOf b.before.reverse := by
        rw [hopened.before]
        apply headingsFrom_congr
        intro k _ hk
        rw [List.length_take] at hk
        rw [hbefore k (by omega)]
      -- What has been read since the opening tag is announced behind its sign.
      have hinner : outlineOf current.reverse =
          headingsFrom (fun k => (counts k + if k = tag.number then 1 else 0) = 1)
            (tag.number + 1) (signs.drop (tag.number + 1)) := by
        rw [headingsFrom_split hsign, hheading, hzero, ← hopened.before, Nesting.outline,
          outlineBehind, hmain, outlineOfInverse, List.append_assoc] at houtline
        have hrest := List.append_cancel_left houtline
        rw [List.cons_append, List.nil_append] at hrest
        rw [(List.cons.inj hrest).2]
        apply headingsFrom_congr
        intro k hk _
        rw [if_neg (by omega), Nat.add_zero]
      refine ⟨tag, outer, rfl, ?_, ?_⟩
      · rw [headingsFrom_split hsign, hfront, hheading, ← hinner, if_pos rfl, hzero,
          Nesting.outline]
        simp only [outlineBehind, outlineOfInverse, List.reverse_nil, outlineOf, List.append_nil]
        rfl
      · refine .cons ⟨hopened.name, hopened.sign, hfront.symm, ?_, ?_⟩ houter
          (hrest.congr fun other hother k hk => hbefore k ?_)
        · rw [if_pos rfl, hzero]
          rfl
        · intro main hmain
          cases hmain
          rfl
        · exact Nat.lt_of_le_of_lt hk (houter other hother)

/-- A closed block becomes a statement, with the same headings. -/
theorem pop {b : OpenBlock} {blocks : List OpenBlock} {tag : OpenTag} {outer : List OpenTag}
    (hblocks : n.blocks = b :: blocks) (htags : tags = tag :: outer) :
    Tracks signs counts outer ⟨b.complete n.current :: b.before, blocks⟩ ∧
      tag.name = if b.chained then none else some b.name := by
  obtain ⟨current, blocks⟩ := n
  obtain ⟨houtline, hfollows⟩ := h
  subst hblocks htags
  cases hfollows with
  | cons hopened houter hrest =>
    refine ⟨⟨?_, hrest⟩, hopened.name⟩
    rw [← houtline, Nesting.outline, Nesting.outline, outlineOf_reverse_cons,
      OpenBlock.outline_complete hopened.faithful, outlineBehind]
    simp only [List.append_assoc, List.cons_append]

theorem close {name : String} (hclose : Nesting.close name n.current n.blocks = .ok m) :
    tags.findSome? (·.name) = some name ∧
      Tracks signs counts (tags.dropWhile (·.name.isNone)).tail m := by
  obtain ⟨current, blocks⟩ := n
  induction blocks generalizing current tags with
  | nil => cases hclose
  | cons b blocks ih =>
    cases htags : tags with
    | nil =>
      subst htags
      cases h.follows
    | cons tag outer =>
      obtain ⟨hpop, hname⟩ := h.pop rfl htags
      rw [Nesting.close] at hclose
      split at hclose
      · next hchained =>
        rw [if_pos hchained] at hname
        obtain ⟨hfound, htracks⟩ := ih _ hpop hclose
        simp only [List.findSome?_cons, List.dropWhile_cons, hname, Option.isNone_none, if_true]
        exact ⟨hfound, htracks⟩
      · next hchained =>
        rw [if_neg hchained] at hname
        split at hclose
        · next heq =>
          cases hclose
          simp only [List.findSome?_cons, List.dropWhile_cons, hname, heq]
          exact ⟨trivial, hpop⟩
        · cases hclose

end Tracks

end

/-- Signs that have been read, and the place that has been reached with them. -/
structure Reached (signs : List Sign) (n : Nesting) : Prop where
  tracks : Tracks signs (elses signs) (openTags signs) n
  /-- No `else` has been counted for a block that is yet to come. -/
  fresh : ∀ k, signs.length ≤ k → elses signs k = 0
  balance : signs.countP Sign.isOpening =
    signs.countP Sign.isClosing + (openTags signs).countP (·.name.isSome)
  names : ∀ before name after, signs = before ++ .closing name :: after →
    closingName? before = some name

namespace Reached

theorem start : Reached [] {} where
  tracks := ⟨rfl, .nil⟩
  fresh := fun _ _ => rfl
  balance := rfl
  names := by simp

variable {signs : List Sign} {n m : Nesting}

theorem content (h : Reached signs n) (text : String) : Reached signs (n.push (.content text)) where
  tracks := h.tracks.content text
  fresh := h.fresh
  balance := h.balance
  names := h.names

/-- The number of the innermost block is that of a sign. -/
theorem innermost?_lt (h : Reached signs n) {k : Nat} (hk : innermost? signs = some k) :
    k < signs.length := by
  obtain ⟨tag, hhead, rfl⟩ := Option.map_eq_some_iff.mp hk
  exact h.tracks.follows.lt_length tag (List.mem_of_head? hhead)

theorem fresh_append (h : Reached signs n) (sign : Sign) :
    ∀ k, signs.length ≤ k → elses (signs ++ [sign]) k = 0 := by
  intro k hk
  rw [elses_append, h.fresh k hk, if_neg]
  rintro ⟨-, hinner⟩
  exact Nat.not_le_of_lt (h.innermost?_lt hinner) hk

/-- One more sign: what it does to the place, to the balance of tags, and its name, if it
closes a block. -/
theorem extend (h : Reached signs n) {sign : Sign}
    (htracks : Tracks (signs ++ [sign]) (elses (signs ++ [sign])) (openTags (signs ++ [sign])) m)
    (hbalance : (openTags signs).countP (·.name.isSome) + (if sign.isOpening then 1 else 0) =
      (openTags (signs ++ [sign])).countP (·.name.isSome) + if sign.isClosing then 1 else 0)
    (hname : ∀ name, sign = .closing name → closingName? signs = some name) :
    Reached (signs ++ [sign]) m where
  tracks := htracks
  fresh := by
    intro k hk
    rw [List.length_append] at hk
    exact h.fresh_append sign k (by omega)
  balance := by
    have hold := h.balance
    simp only [List.countP_append, List.countP_singleton]
    omega
  names := by
    intro before name after heq
    rcases List.eq_nil_or_concat after with rfl | ⟨after, last, rfl⟩
    · obtain ⟨rfl, hlast⟩ := List.append_inj' heq rfl
      exact hname name (List.singleton_inj.mp hlast)
    · rw [List.concat_eq_append, ← List.cons_append, ← List.append_assoc] at heq
      exact h.names before name after (List.append_inj' heq rfl).1

/-- The counts stay as they are unless there is an `else`. -/
theorem elses_eq {sign : Sign} (helse : sign.isElse = false) :
    elses (signs ++ [sign]) = elses signs := by
  funext k
  rw [elses_append, helse]
  rfl

theorem invert (h : Reached signs n) {sign : Sign} (helse : sign.isElse = true)
    (hinvert : n.invert = .ok m) : Tracks signs (elses (signs ++ [sign])) (openTags signs) m := by
  obtain ⟨tag, outer, htags, htracks⟩ := h.tracks.invert hinvert
  have hcounts : elses (signs ++ [sign]) =
      fun k => elses signs k + if k = tag.number then 1 else 0 := by
    funext k
    simp only [elses_append, helse, innermost?, htags, true_and, List.head?_cons, Option.map_some,
      Option.some.injEq, eq_comm]
  rw [hcounts]
  exact htracks

theorem countP_after_closing {tags : List OpenTag} {name : String}
    (h : tags.findSome? (·.name) = some name) :
    tags.countP (·.name.isSome) =
      (tags.dropWhile (·.name.isNone)).tail.countP (·.name.isSome) + 1 := by
  induction tags with
  | nil => cases h
  | cons tag tags ih =>
    rw [List.findSome?_cons] at h
    cases hname : tag.name with
    | none =>
      rw [hname] at h
      simpa [hname] using ih h
    | some name => simp [hname]

theorem moves (h : Reached signs n) {t : Tag} {sign : Sign} (hsaid : Says t sign)
    (hmoves : n.Moves sign m) : Reached (signs ++ [sign]) m := by
  cases hmoves with
  | leaf s =>
    refine h.extend ?_ ?_ nofun
    · rw [elses_eq rfl, openTags_append]
      exact h.tracks.leaf hsaid.outline_leaf
    · rw [openTags_append]
      rfl
  | opening position o =>
    refine h.extend ?_ ?_ nofun
    · rw [elses_eq rfl, openTags_append]
      exact h.tracks.enter position false (fun _ => rfl) (h.fresh _ (Nat.le_refl _))
    · rw [openTags_append]
      simp [OpenTag.after, Sign.isOpening, Sign.isClosing]
  | chain position o hinvert =>
    refine h.extend ?_ ?_ nofun
    · rw [openTags_append]
      exact (h.invert rfl hinvert).enter position true (fun _ => rfl)
        (h.fresh_append _ _ (Nat.le_refl _))
    · rw [openTags_append]
      simp [OpenTag.after, Sign.isOpening, Sign.isClosing]
  | otherwise hinvert =>
    refine h.extend ?_ ?_ nofun
    · rw [openTags_append]
      exact (h.invert rfl hinvert).skip fun _ => rfl
    · rw [openTags_append]
      rfl
  | @closing _ name hclose =>
    obtain ⟨hname, htracks⟩ := h.tracks.close hclose
    refine h.extend ?_ ?_ ?_
    · rw [elses_eq rfl, openTags_append]
      exact htracks.skip fun _ => rfl
    · rw [openTags_append]
      exact countP_after_closing hname
    · rintro _ ⟨⟩
      exact hname

/-- Reading segments goes on with the signs of their tags. -/
theorem run (h : Reached signs n) {segments : List Segment} (hrun : n.run segments = .ok m) :
    ∃ more, List.Forall₂ Says (Segment.tags segments) more ∧ Reached (signs ++ more) m := by
  induction segments generalizing n signs with
  | nil =>
    cases hrun
    exact ⟨[], .nil, by rwa [List.append_nil]⟩
  | cons segment segments ih =>
    cases segment with
    | text run => exact ih (h.content _) hrun
    | tag position t =>
      obtain ⟨next, happly, hrest⟩ := Nesting.run_tag_eq_ok hrun
      obtain ⟨sign, hsaid, hmoves⟩ := Nesting.exists_moves happly
      obtain ⟨more, hmore, hreached⟩ := ih (h.moves hsaid hmoves) hrest
      refine ⟨sign :: more, .cons hsaid hmore, ?_⟩
      rwa [List.append_assoc] at hreached
    | broken position fault => cases hrun

end Reached

namespace Program

/-- A template that can be read is read by way of the signs of its tags. -/
theorem exists_reached {source : String} {p : Program} (h : parse source = .ok p) :
    ∃ tags signs, Tagged source.toList tags ∧ List.Forall₂ Says tags signs ∧
      Reached signs ⟨p.body.reverse, []⟩ := by
  unfold parse ofText at h
  split at h
  · cases h
  · next n hrun =>
    obtain ⟨signs, hsaid, hreached⟩ := Reached.start.run hrun
    obtain ⟨hblocks, rfl⟩ := Nesting.finish_eq_ok (Nesting.run_grounded hrun trivial) h
    obtain ⟨current, blocks⟩ := n
    cases hblocks
    rw [List.nil_append] at hreached
    refine ⟨_, signs, Nesting.tagged_of_run hrun, hsaid, ?_⟩
    rwa [ofBody_body, List.reverse_reverse]

/-- What signs announce is the outline of the program that is read by way of them. -/
theorem outlineOf_of_reached {p : Program} {signs : List Sign}
    (h : Reached signs ⟨p.body.reverse, []⟩) : outlineOf p.body = headings signs := by
  have houtline := h.tracks.outline
  rwa [Nesting.outline, outlineBehind, List.reverse_reverse] at houtline

/-- The tags of a template that can be read have signs, and the statements of its program are
those that the signs announce, in their order. Every closing tag repeats the name of the innermost
block that needs one, and there are as many as blocks to be closed. -/
theorem outlineOf_parse {source : String} {p : Program} (h : parse source = .ok p) :
    (∃ tags signs, Tagged source.toList tags ∧ List.Forall₂ Says tags signs) ∧
    ∀ tags signs, Tagged source.toList tags → List.Forall₂ Says tags signs →
      outlineOf p.body = headings signs ∧
      signs.countP Sign.isClosing = signs.countP Sign.isOpening ∧
      ∀ before name after, signs = before ++ .closing name :: after →
        closingName? before = some name := by
  obtain ⟨tags, signs, htagged, hsaid, hreached⟩ := exists_reached h
  refine ⟨⟨tags, signs, htagged, hsaid⟩, fun others other htags hother => ?_⟩
  obtain rfl := htagged.unique htags
  obtain rfl : signs = other :=
    List.right_unique_forall₂' (fun _ _ _ h h' => h.unique h') hsaid hother
  refine ⟨outlineOf_of_reached hreached, ?_, hreached.names⟩
  have hopen := hreached.tracks.follows.eq_nil
  have hbalance := hreached.balance
  rw [hopen] at hbalance
  exact hbalance.symm

/-- A source with a chain, a note, an embedded template and text, whose tags are read from left to
right. -/
def chainSource : String :=
  "\x7b\x7b#if a\x7d\x7dx\x7b\x7belse each b as |c|\x7d\x7d\x7b\x7b!d\x7d\x7d" ++
    "\x7b\x7belse\x7d\x7d\x7b\x7b> e\x7d\x7d\x7b\x7b/if\x7d\x7d\x7b\x7bf\x7d\x7d"

theorem outlineOf_parse_chainSource :
    ∃ p tags signs, parse chainSource = .ok p ∧ Tagged chainSource.toList tags ∧
      List.Forall₂ Says tags signs ∧ outlineOf p.body = headings signs ∧
      signs.countP Sign.isClosing = signs.countP Sign.isOpening := by
  have hread : (parse chainSource).toOption.isSome = true := by decide +kernel
  cases hparse : parse chainSource with
  | error e =>
    rw [hparse] at hread
    cases hread
  | ok p =>
    obtain ⟨⟨tags, signs, htagged, hsaid⟩, hall⟩ := outlineOf_parse hparse
    obtain ⟨houtline, hcount, -⟩ := hall tags signs htagged hsaid
    exact ⟨p, tags, signs, rfl, htagged, hsaid, houtline, hcount⟩

end Program

end Stencil.Handlebars
