import Stencil.Proofs.Handlebars.Seam

/-!
# The tags of a template

Which tags stand in a text, and what each of them says. Tags are found from
left to right, each behind the end of the one before, and a backslash keeps a
tag from being read. What a tag says is the call it holds, under a mark that
tells what the call is for. A template that can be read says in its tags what
moves the reader from one open block to the next.
-/

namespace Stencil.Handlebars

open Text (Position)

/-- The tags of a text, in order. Before a tag there is nothing that opens one. -/
inductive Tagged : List Char → List Tag → Prop
  | text {s : List Char} (h : ¬ Tag.braces <:+: s) : Tagged s []
  /-- A backslash protects a tag that never ends, and all the rest with it. -/
  | unclosed {before after : List Char} (hfirst : ¬ Tag.braces <:+: before ++ ['{'])
      (hslash : Segment.backslashes before = 1)
      (hclose : Text.cutOutside Tag.closingBraces .outside after = none) :
      Tagged (before ++ Tag.braces ++ after) []
  /-- A backslash protects a tag up to its end. -/
  | shielded {before after body rest : List Char} {tags : List Tag}
      (hfirst : ¬ Tag.braces <:+: before ++ ['{']) (hslash : Segment.backslashes before = 1)
      (hclose : Text.cutOutside Tag.closingBraces .outside after = some (body, rest))
      (hrest : Tagged rest tags) : Tagged (before ++ Tag.braces ++ after) tags
  | tag {before after rest : List Char} {t : Tag} {tags : List Tag}
      (hfirst : ¬ Tag.braces <:+: before ++ ['{']) (hslash : Segment.backslashes before ≠ 1)
      (hread : Tag.read after = .ok (t, rest)) (hrest : Tagged rest tags) :
      Tagged (before ++ Tag.braces ++ after) (t :: tags)

/-- A text determines its tags. -/
theorem Tagged.unique {s : List Char} {tags others : List Tag} (h : Tagged s tags)
    (hothers : Tagged s others) : tags = others := by
  -- Where a tag starts is where the text is cut.
  have hcut {before after : List Char} (h : ¬ Tag.braces <:+: before ++ ['{']) :
      Text.cut Tag.braces (before ++ Tag.braces ++ after) = some (before, after) := by
    rw [List.append_assoc]
    exact Text.cut_pair_append h after
  induction h generalizing others with
  | text hfree =>
    cases hothers with
    | text => rfl
    | @unclosed before after => exact absurd ⟨before, after, rfl⟩ hfree
    | @shielded before after => exact absurd ⟨before, after, rfl⟩ hfree
    | @tag before after => exact absurd ⟨before, after, rfl⟩ hfree
  | @unclosed before after hfirst hslash hclose =>
    generalize hs : before ++ Tag.braces ++ after = s at hothers
    cases hothers <;> grind
  | @shielded before after body rest tags hfirst hslash hclose hrest ih =>
    generalize hs : before ++ Tag.braces ++ after = s at hothers
    cases hothers <;> grind
  | @tag before after rest t tags hfirst hslash hread hrest ih =>
    generalize hs : before ++ Tag.braces ++ after = s at hothers
    cases hothers <;> grind

namespace Segment

def tag? : Segment → Option Tag
  | tag _ t => some t
  | _ => none

def tags (segments : List Segment) : List Tag :=
  segments.filterMap tag?

def isBroken : Segment → Bool
  | broken .. => true
  | _ => false

theorem tags_marks (segments : List Segment) : tags (marks segments) = tags segments := by
  simp only [tags, marks, List.filterMap_filter]
  congr
  funext segment
  cases segment <;> rfl

theorem any_isBroken_marks (segments : List Segment) :
    (marks segments).any isBroken = segments.any isBroken := by
  rw [marks, List.any_filter]
  congr
  funext segment
  cases segment <;> rfl

/-- Text in front changes neither the tags nor whether all of them could be read. -/
theorem tags_consText (run : List Char) (segments : List Segment) :
    tags (consText run segments) = tags segments := by
  rw [← tags_marks, marks_consText, tags_marks]

theorem any_isBroken_consText (run : List Char) (segments : List Segment) :
    (consText run segments).any isBroken = segments.any isBroken := by
  rw [← any_isBroken_marks, marks_consText, any_isBroken_marks]

theorem tags_tidy (left : Bool) (segments : List Segment) :
    tags (tidy left segments) = tags segments := by
  rw [← tags_marks, marks_tidy, tags_marks]

theorem any_isBroken_tidy (left : Bool) (segments : List Segment) :
    (tidy left segments).any isBroken = segments.any isBroken := by
  rw [← any_isBroken_marks, marks_tidy, any_isBroken_marks]

/-- A scan that meets no tag it cannot read finds the tags of the text. -/
theorem tagged_scan (position : Position) (s : List Char)
    (h : (scan position s).any isBroken = false) : Tagged s (tags (scan position s)) := by
  fun_induction scan position s with
  | case1 position s hcut =>
    rw [tags_consText]
    exact .text (Text.not_infix_of_cut_eq_none (by decide) hcut)
  | case2 position s before after hcut _ hslash hclose =>
    rw [tags_consText, Text.append_of_cut hcut]
    exact .unclosed (Text.not_infix_of_cut hcut) hslash hclose
  | case3 position s before after hcut _ here hslash body rest hclose _ literal ih =>
    rw [any_isBroken_consText] at h
    rw [tags_consText, Text.append_of_cut hcut]
    exact .shielded (Text.not_infix_of_cut hcut) hslash hclose (ih h)
  | case4 position s before after hcut _ here hslash ih =>
    rw [any_isBroken_consText] at h
    rw [tags_consText, Text.append_of_cut hcut]
    split at h
    · cases h
    · next t rest hread =>
      exact .tag (Text.not_infix_of_cut hcut) hslash hread (ih t rest hread h)

end Segment

/-- What a tag of a template says. -/
inductive Sign
  /-- A statement that holds no others. -/
  | leaf (statement : Statement)
  | opening (opening : Opening)
  /-- The innermost block has an inverse, which is one more block. -/
  | chain (opening : Opening)
  | otherwise
  | closing (name : String)

/-- A trimmed text that is marked as nothing else holds a value to be shown. -/
structure Unmarked (s : List Char) : Prop where
  first : ∀ c ∈ s.head?, c ∉ ['#', '/', '^', '*', '>', '&']
  ne_else : s ≠ "else".toList
  unchained : Directive.chained? s = none

inductive Says (t : Tag) : Sign → Prop
  | comment {body : List Char} (hform : t.form = .comment body ∨ t.form = .dashed body) :
      Says t (.leaf (.comment (String.ofList body)))
  | triple {inner : List Char} {head : Expr} {args : Arguments} (hform : t.form = .triple inner)
      (hcall : Call.parse inner = .ok ⟨head, args, []⟩) : Says t (.leaf (.mustache head args false))
  | raw {body inner : List Char} {head : Expr} {args : Arguments} (hform : t.form = .plain body)
      (hbody : Text.trim body = '&' :: inner) (hcall : Call.parse inner = .ok ⟨head, args, []⟩) :
      Says t (.leaf (.mustache head args false))
  | escaped {body : List Char} {head : Expr} {args : Arguments} (hform : t.form = .plain body)
      (hbody : Unmarked (Text.trim body))
      (hcall : Call.parse (Text.trim body) = .ok ⟨head, args, []⟩) :
      Says t (.leaf (.mustache head args true))
  | embed {body inner : List Char} {call : Call} (hform : t.form = .plain body)
      (hbody : Text.trim body = '>' :: inner) (hcall : Call.parse inner = .ok call) :
      Says t (.leaf (.embed call.head call.args))
  | opening {body inner : List Char} {o : Opening} (hform : t.form = .plain body)
      (hbody : Text.trim body = '#' :: inner)
      (hcall : Call.parse inner = .ok ⟨.path o.helper, o.args, o.blockParams⟩) :
      Says t (.opening o)
  | chain {body inner : List Char} {c : Char} {o : Opening} (hform : t.form = .plain body)
      (hbody : Text.trim body = "else".toList ++ c :: inner) (hblank : Text.isBlank c = true)
      (hcall : Call.parse (c :: inner) = .ok ⟨.path o.helper, o.args, o.blockParams⟩) :
      Says t (.chain o)
  | otherwise {body : List Char} (hform : t.form = .plain body)
      (hbody : Text.trim body = "else".toList ∨
        ∃ inner, Text.trim body = '^' :: inner ∧ Text.trim inner = []) : Says t .otherwise
  | closing {body inner : List Char} (hform : t.form = .plain body)
      (hbody : Text.trim body = '/' :: inner) :
      Says t (.closing (String.ofList (Text.trim inner)))

theorem not_unmarked_cons {c : Char} (hc : c ∈ ['#', '/', '^', '*', '>', '&'])
    (inner : List Char) : ¬ Unmarked (c :: inner) :=
  fun h => h.first c rfl hc

theorem not_unmarked_otherwise {s : List Char} (h : s = ['e', 'l', 's', 'e'] ∨
    ∃ inner, s = '^' :: inner ∧ Text.trim inner = []) : ¬ Unmarked s := by
  intro hs
  rcases h with h | ⟨inner, rfl, -⟩
  · exact hs.ne_else h
  · exact not_unmarked_cons (by decide) inner hs

theorem not_unmarked_chain {c : Char} (hc : Text.isBlank c = true) (inner : List Char) :
    ¬ Unmarked ('e' :: 'l' :: 's' :: 'e' :: c :: inner) := by
  intro h
  simpa [Directive.chained?, hc] using h.unchained

theorem Opening.eq_of_fields {o other : Opening} (h : other.helper = o.helper ∧
    other.args = o.args ∧ other.blockParams = o.blockParams) : o = other := by
  obtain ⟨helper, args, blockParams⟩ := o
  obtain ⟨rfl, rfl, rfl⟩ := h
  rfl

/-- A tag says one thing. -/
theorem Says.unique {t : Tag} {sign other : Sign} (h : Says t sign) (hother : Says t other) :
    sign = other := by
  -- Most pairs differ in the form of the tag or in the mark that its body starts with.
  cases h <;> cases hother <;> simp_all [not_unmarked_cons, not_unmarked_chain]
  case comment.comment hform _ hother =>
    rcases hform with hform | hform <;> simp_all
  case escaped.otherwise hbody _ _ hother => exact not_unmarked_otherwise hother hbody
  case opening.opening hcall _ _ _ => exact Opening.eq_of_fields hcall
  case chain.chain hcall _ _ _ _ => exact Opening.eq_of_fields hcall
  case otherwise.escaped hother _ hbody _ => exact not_unmarked_otherwise hother hbody

theorem Opening.parse_eq_ok {s : List Char} {o : Opening} (h : Opening.parse s = .ok o) :
    Call.parse s = .ok ⟨.path o.helper, o.args, o.blockParams⟩ := by
  unfold Opening.parse at h
  split at h
  · cases h
  · next call hcall =>
    obtain ⟨head, args, blockParams⟩ := call
    split at h
    · next helper hhead =>
      cases h
      cases hhead
      exact hcall
    · cases h

namespace Directive

theorem ofMustache_eq_ok {s : List Char} {escaped : Bool} {d : Directive}
    (h : ofMustache s escaped = .ok d) :
    ∃ head args, d = mustache head args escaped ∧ Call.parse s = .ok ⟨head, args, []⟩ ∧
      head.isCall = false := by
  unfold ofMustache at h
  split at h
  · cases h
  · next call hcall =>
    obtain ⟨head, args, blockParams⟩ := call
    split at h
    · cases h
    · next hhead =>
      split at h
      · next hnone =>
        cases h
        rw [List.isEmpty_iff] at hnone
        subst hnone
        refine ⟨head, args, rfl, hcall, ?_⟩
        cases head with
        | call helper params hash => exact absurd rfl (hhead helper params hash)
        | _ => rfl
      · cases h

theorem ofOpening_eq_ok {s : List Char} {d : Directive} (h : ofOpening s = .ok d) :
    ∃ o, d = opening o ∧ Call.parse s = .ok ⟨.path o.helper, o.args, o.blockParams⟩ := by
  unfold ofOpening at h
  split at h
  · cases h
  · cases h
  · cases hparse : Opening.parse s with
    | error fault =>
      rw [hparse] at h
      cases h
    | ok o =>
      rw [hparse] at h
      cases h
      exact ⟨o, rfl, Opening.parse_eq_ok hparse⟩

theorem ofEmbed_eq_ok {s : List Char} {d : Directive} (h : ofEmbed s = .ok d) :
    ∃ call, d = embed call.head call.args ∧ Call.parse s = .ok call := by
  unfold ofEmbed at h
  cases hcall : Call.parse s with
  | error fault =>
    rw [hcall] at h
    cases h
  | ok call =>
    rw [hcall] at h
    cases h
    exact ⟨call, rfl, rfl⟩

theorem chained?_eq_some {s call : List Char} (h : chained? s = some call) :
    ∃ c rest, call = c :: rest ∧ Text.isBlank c = true ∧ s = "else".toList ++ c :: rest := by
  unfold chained? at h
  split at h
  · next c rest =>
    split at h
    · next hblank =>
      cases h
      exact ⟨c, rest, rfl, hblank, rfl⟩
    · cases h
  · cases h

theorem chained?_of_ofPlain {s call : List Char} (h : ofPlain s = .ok (.chain call)) :
    chained? s = some call := by
  unfold ofPlain at h
  split at h
  · cases h
  · obtain ⟨o, ho, -⟩ := ofOpening_eq_ok h
    cases ho
  · cases h
  · split at h <;> cases h
  · cases h
  · obtain ⟨c, hc, -⟩ := ofEmbed_eq_ok h
    cases hc
  · obtain ⟨head, args, hm, -⟩ := ofMustache_eq_ok h
    cases hm
  · split at h
    · cases h
    · split at h
      · next hchained =>
        cases h
        exact hchained
      · obtain ⟨head, args, hm, -⟩ := ofMustache_eq_ok h
        cases hm

end Directive

namespace Nesting

/-- What a sign does to the place that a reader has reached. -/
inductive Moves (n : Nesting) : Sign → Nesting → Prop
  | leaf (statement : Statement) : Moves n (.leaf statement) (n.push statement)
  | opening (position : Position) (o : Opening) :
      Moves n (.opening o) (n.enter position o false)
  | chain {inner : Nesting} (position : Position) (o : Opening) (hinvert : n.invert = .ok inner) :
      Moves n (.chain o) (inner.enter position o true)
  | otherwise {m : Nesting} (hinvert : n.invert = .ok m) : Moves n .otherwise m
  | closing {m : Nesting} {name : String} (hclose : close name n.current n.blocks = .ok m) :
      Moves n (.closing name) m

variable {n m : Nesting} {position : Position} {t : Tag}

theorem moves_mustache {inner : List Char} {escaped : Bool} {d : Directive}
    (hd : Directive.ofMustache inner escaped = .ok d) (hstep : n.step position d = .ok m)
    (hsaid : ∀ head args, Call.parse inner = .ok ⟨head, args, []⟩ →
      Says t (.leaf (.mustache head args escaped))) : ∃ sign, Says t sign ∧ Moves n sign m := by
  obtain ⟨head, args, rfl, hcall, -⟩ := Directive.ofMustache_eq_ok hd
  cases hstep
  exact ⟨_, hsaid head args hcall, .leaf _⟩

theorem moves_plain {body : List Char} {d : Directive} (hform : t.form = .plain body)
    (hd : Directive.ofPlain (Text.trim body) = .ok d) (hstep : n.step position d = .ok m) :
    ∃ sign, Says t sign ∧ Moves n sign m := by
  generalize hs : Text.trim body = s at hd
  unfold Directive.ofPlain at hd
  split at hd
  · cases hd
  · obtain ⟨o, rfl, hcall⟩ := Directive.ofOpening_eq_ok hd
    obtain ⟨-, rfl⟩ := step_opening_eq_ok.mp hstep
    exact ⟨_, .opening hform hs hcall, .opening position o⟩
  · cases hd
    exact ⟨_, .closing hform hs, .closing hstep⟩
  · split at hd
    · next inner hblank =>
      cases hd
      exact ⟨_, .otherwise hform (.inr ⟨inner, hs, List.isEmpty_iff.mp hblank⟩), .otherwise hstep⟩
    · cases hd
  · cases hd
  · obtain ⟨call, rfl, hcall⟩ := Directive.ofEmbed_eq_ok hd
    cases hstep
    exact ⟨_, .embed hform hs hcall, .leaf _⟩
  · exact moves_mustache hd hstep fun head args hcall => .raw hform hs hcall
  · next hnil hopening hclosing hcaret hstar hembed hraw =>
    split at hd
    · next helse =>
      cases hd
      exact ⟨_, .otherwise hform (.inl (hs.trans helse)), .otherwise hstep⟩
    · next helse =>
      split at hd
      · next call hchained =>
        cases hd
        obtain ⟨inner, o, hinvert, ho, rfl⟩ := step_chain_eq_ok.mp hstep
        obtain ⟨c, rest, rfl, hblank, rfl⟩ := Directive.chained?_eq_some hchained
        exact ⟨_, .chain hform hs hblank (Opening.parse_eq_ok ho), .chain position o hinvert⟩
      · next hchained =>
        have hfirst : ∀ c ∈ s.head?, c ∉ ['#', '/', '^', '*', '>', '&'] := by
          intro c hc
          obtain ⟨rest, rfl⟩ := List.head?_eq_some_iff.mp hc
          simp_all
        refine moves_mustache hd hstep fun head args hcall => .escaped hform ?_ (hs ▸ hcall)
        rw [hs]
        exact ⟨hfirst, helse, hchained⟩

/-- A tag that the reader obeys says something, and this is what the reader does. -/
theorem exists_moves (h : n.apply position t = .ok m) : ∃ sign, Says t sign ∧ Moves n sign m := by
  obtain ⟨d, hd, hstep⟩ := apply_eq_ok.mp h
  unfold Directive.ofTag at hd
  split at hd
  · next body hform =>
    cases hd
    cases hstep
    exact ⟨_, .comment (.inl hform), .leaf _⟩
  · next body hform =>
    cases hd
    cases hstep
    exact ⟨_, .comment (.inr hform), .leaf _⟩
  · next body hform =>
    exact moves_mustache hd hstep fun head args hcall => .triple hform hcall
  · next body hform => exact moves_plain hform hd hstep

theorem any_isBroken_of_run {segments : List Segment} (h : n.run segments = .ok m) :
    segments.any Segment.isBroken = false := by
  induction segments generalizing n with
  | nil => rfl
  | cons segment segments ih =>
    cases segment with
    | text run => exact ih h
    | tag position t =>
      obtain ⟨next, -, hrest⟩ := run_tag_eq_ok h
      exact ih hrest
    | broken position fault => cases h

/-- The tags of a template that is read to its end are all there. -/
theorem tagged_of_run {s : List Char} (h : n.run (Segment.ofSource s) = .ok m) :
    Tagged s (Segment.tags (Segment.ofSource s)) := by
  have hbroken := any_isBroken_of_run h
  rw [Segment.ofSource, Segment.any_isBroken_tidy] at hbroken
  rw [Segment.ofSource, Segment.tags_tidy]
  exact Segment.tagged_scan .start s hbroken

end Nesting

end Stencil.Handlebars
