import Stencil.Proofs.Handlebars.Locality
import Stencil.Proofs.Handlebars.Provenance
import Stencil.Proofs.Handlebars.Signs

/-!
# Tildes

A tilde next to the braces of a tag drops the blanks of the text on its side.
The same can be done by hand: a template with tildes is read like the one in
which they are left out and the texts beside them are trimmed. A tilde reaches no
further than the text that it stands next to, whatever the tags are and wherever
blocks begin and end.
-/

namespace Stencil.Handlebars

open Text (Position Closed Unclosed Sealed)
open Segment (trimmedBy)

/-- A body that is taken for itself: its ends are no tildes, and no brace stands before those that
close the tag. -/
structure Form.Bare (form : Form) : Prop where
  first : form.body.head? ≠ some '~'
  last : form.body.getLast? ≠ some '~'
  brace : form.body.getLast? ≠ some '}'

/-- A form that is told by its first characters and that does not end before it has been spelled
out: what closes it does not stand in its body, unless it is quoted there in a plain or a triple
tag. -/
def Form.Complete : Form → Prop
  | .plain body => body.head? ≠ some '{' ∧ body.head? ≠ some '!' ∧ Unclosed .outside body ∧
      Closed body
  | .triple body => body.head? ≠ some '{' ∧ Sealed body
  | .comment body => ¬ ['-', '-'] <+: body ∧ ¬ Tag.closingBraces <:+: body
  | .dashed body => ¬ ['-', '-', '}', '}'] <:+: body ∧ ¬ ['-', '-', '~', '}', '}'] <:+: body

namespace Tag

def bare (t : Tag) : Tag :=
  ⟨false, t.form, false⟩

/-- A single tilde with nothing beside it counts as one on the left. -/
def settled (t : Tag) : Tag :=
  if t.form = .plain [] ∧ t.trimLeft = false then ⟨t.trimRight, t.form, false⟩ else t

theorem settled_form (t : Tag) : t.settled.form = t.form := by
  unfold settled
  split <;> rfl

theorem settled_lexeme (t : Tag) : t.settled.lexeme = t.lexeme := by
  unfold settled
  split
  · next h =>
    obtain ⟨left, form, right⟩ := t
    obtain ⟨rfl, rfl⟩ := h
    simp [lexeme, formLexeme, tilde]
  · rfl

theorem settled_eq_self {t : Tag} (h : t.form ≠ .plain []) : t.settled = t := by
  rw [settled, if_neg fun hempty => h hempty.1]

theorem head?_append_of_ne {c : Char} {s rest : List Char} (hs : s.head? ≠ some c)
    (hrest : rest.head? ≠ some c) : (s ++ rest).head? ≠ some c := by
  cases s with
  | nil => exact hrest
  | cons d s => exact hs

theorem head?_tilde_append (right : Bool) {c : Char} (hc : c ≠ '~' ∧ c ≠ '}') (rest : List Char) :
    (tilde right ++ (closingBraces ++ rest)).head? ≠ some c := by
  cases right
  · simpa [tilde, closingBraces] using hc.2.symm
  · simpa [tilde] using hc.1.symm

theorem dropTildeEnd_append_tilde {body : List Char} (h : body.getLast? ≠ some '~')
    (right : Bool) : dropTildeEnd (body ++ tilde right) = (body, right) := by
  cases right with
  | true => simp [dropTildeEnd, tilde]
  | false => simp [dropTildeEnd, tilde, h]

theorem dropTilde_tilde_append (right : Bool) (rest : List Char) :
    dropTilde (tilde right ++ (closingBraces ++ rest)) = (right, closingBraces ++ rest) := by
  cases right <;> rfl

section
variable {body : List Char} (right : Bool) (rest : List Char)

theorem readForm_of_dashed (h : (Form.dashed body).Complete) :
    readForm (formLexeme right (.dashed body) ++ rest) = .ok (.dashed body, right, rest) := by
  have hcut := cutDashes_append h.1 h.2 right rest
  simp only [formLexeme, List.cons_append, readForm] at hcut ⊢
  rw [hcut]

theorem readForm_of_triple (h : (Form.triple body).Complete) :
    readForm (formLexeme right (.triple body) ++ rest) = .ok (.triple body, right, rest) := by
  obtain ⟨hhead, hseal⟩ := h
  have hcut := Text.cutOutside_of_shielded hseal.shielded hseal.closed []
    (tilde right ++ (closingBraces ++ rest))
  have hdrop := dropTilde_tilde_append right rest
  have hform := readForm_triple ?_ hcut (by rw [hdrop]; exact Text.behind?_self_append _ rest)
  · rw [hdrop] at hform
    simpa [formLexeme] using hform
  · rw [List.append_assoc]
    exact head?_append_of_ne hhead (by simp)

variable (hlast : body.getLast? ≠ some '~') (hbrace : body.getLast? ≠ some '}')
include hlast hbrace

theorem readForm_of_comment (h : (Form.comment body).Complete) :
    readForm (formLexeme right (.comment body) ++ rest) = .ok (.comment body, right, rest) := by
  obtain ⟨hdashes, hfree⟩ := h
  have hwhole : ¬ closingBraces <:+: body ++ tilde right ∧
      (body ++ tilde right).getLast? ≠ some '}' := by
    cases right with
    | false => simpa [tilde] using ⟨hfree, hbrace⟩
    | true =>
      refine ⟨?_, by simp [tilde]⟩
      rw [tilde, if_pos rfl, Text.infix_append_cons_iff (by decide) (by decide)]
      simpa [closingBraces] using hfree
  have hcut : Text.cut closingBraces (body ++ tilde right ++ (closingBraces ++ rest)) =
      some (body ++ tilde right, rest) :=
    Text.cut_pair_append (Text.not_infix_append_take hwhole.1 hwhole.2 ['}']) rest
  have hdash : (tilde right ++ (closingBraces ++ rest)).head? ≠ some '-' :=
    head?_tilde_append right (by decide) rest
  have hform := readForm_comment (by
    rw [List.append_assoc]
    exact Text.not_prefix_pair_append hdashes hdash hdash) hcut
  rw [dropTildeEnd_append_tilde hlast] at hform
  simpa [formLexeme] using hform

theorem readForm_of_plain (h : (Form.plain body).Complete) :
    readForm (formLexeme right (.plain body) ++ rest) = .ok (.plain body, right, rest) := by
  obtain ⟨hhead, hbang, hunclosed, hclosed⟩ := h
  have hclose : Text.cutOutside closingBraces .outside (tilde right ++ (closingBraces ++ rest)) =
      some (tilde right, rest) := by
    cases right <;> simp [Text.cutOutside, Text.behind?, tilde, closingBraces, Text.Quoting.next,
      Text.isQuote]
  have hcut := Text.cutOutside_unclosed_append hunclosed hbrace
    (tilde right ++ (closingBraces ++ rest))
  rw [show Text.Quoting.outside.after body = .outside from hclosed, ← closingBraces, hclose] at hcut
  have hform := readForm_plain
    (head?_append_of_ne hbang (head?_tilde_append right (by decide) rest))
    (head?_append_of_ne hhead (head?_tilde_append right (by decide) rest)) hcut
  rw [dropTildeEnd_append_tilde hlast] at hform
  simpa [formLexeme] using hform

end

theorem readForm_of_complete {form : Form} (h : form.Complete) (hbare : form.Bare) (right : Bool)
    (rest : List Char) : readForm (formLexeme right form ++ rest) = .ok (form, right, rest) := by
  cases form with
  | plain body => exact readForm_of_plain right rest hbare.last hbare.brace h
  | triple body => exact readForm_of_triple right rest h
  | comment body => exact readForm_of_comment right rest hbare.last hbare.brace h
  | dashed body => exact readForm_of_dashed right rest h

theorem head?_formLexeme_append {form : Form} (hbare : form.Bare) {right : Bool}
    (hempty : form = .plain [] → right = false) (rest : List Char) :
    (formLexeme right form ++ rest).head? ≠ some '~' := by
  cases form with
  | plain body =>
    cases body with
    | nil => simp [formLexeme, tilde, closingBraces, hempty rfl]
    | cons c body => exact hbare.first
  | _ => simp [formLexeme]

theorem readable_of_complete {left right : Bool} {form : Form} (h : form.Complete)
    (hbare : form.Bare) (hempty : form = .plain [] → left = false → right = false) :
    Readable ⟨left, form, right⟩ := by
  refine ⟨tilde left ++ formLexeme right form, by simp [lexeme], fun rest => ?_⟩
  have hdrop : dropTilde (tilde left ++ formLexeme right form ++ rest) =
      (left, formLexeme right form ++ rest) := by
    cases left with
    | true => rfl
    | false => exact dropTilde_of_head? (head?_formLexeme_append hbare (hempty · rfl) rest)
  rw [read, hdrop, readForm_of_complete h hbare]

/-- A complete tag is read with any tildes, whatever follows it. -/
theorem readable_settled {t : Tag} (h : t.form.Complete) (hbare : t.form.Bare) :
    t.settled.Readable := by
  unfold settled
  split
  · exact readable_of_complete h hbare fun _ _ => rfl
  · next hsettled =>
    exact readable_of_complete h hbare fun hempty hleft => absurd ⟨hempty, hleft⟩ hsettled

end Tag

/-- A template as it is written: texts with tags between them. -/
inductive Written
  | text (run : List Char)
  | tag (run : List Char) (t : Tag) (more : Written)

namespace Written

def source : Written → List Char
  | text run => run
  | tag run t more => run ++ t.lexeme ++ more.source

/-- The tildes left out, and the texts beside them trimmed; `left` tells whether the tag before has
a right tilde. -/
def trimmed : Bool → Written → Written
  | left, text run => text (trimmedBy left false run)
  | left, tag run t more => tag (trimmedBy left t.trimLeft run) t.bare (more.trimmed t.trimRight)

/-- The texts hold nothing that begins or protects a tag, and every tag is complete. -/
def Complete : Written → Prop
  | text run => '{' ∉ run ∧ '\\' ∉ run
  | tag run t more => ('{' ∉ run ∧ '\\' ∉ run) ∧ (t.form.Complete ∧ t.form.Bare) ∧ more.Complete

def forms : Written → List Form
  | text _ => []
  | tag _ t more => t.form :: more.forms

def segments : Written → List Segment
  | text run => Segment.consText run []
  | tag run t more => Segment.consText run (.tag .start t.settled :: more.segments)

theorem forms_trimmed (left : Bool) (w : Written) : (w.trimmed left).forms = w.forms := by
  induction w generalizing left with
  | text run => rfl
  | tag run t more ih => exact congrArg (t.form :: ·) (ih t.trimRight)

theorem not_mem_trimmedBy {c : Char} {run : List Char} (h : c ∉ run) (left right : Bool) :
    c ∉ trimmedBy left right run :=
  fun hc => h ((Segment.infix_trimmedBy left right run).subset hc)

theorem Complete.trimmed {w : Written} (h : w.Complete) (left : Bool) :
    (w.trimmed left).Complete := by
  induction w generalizing left with
  | text run => exact ⟨not_mem_trimmedBy h.1 left false, not_mem_trimmedBy h.2 left false⟩
  | tag run t more ih =>
    obtain ⟨⟨hbrace, hslash⟩, htag, hmore⟩ := h
    exact ⟨⟨not_mem_trimmedBy hbrace _ _, not_mem_trimmedBy hslash _ _⟩, htag, ih hmore _⟩

/-- The template is scanned to its texts and its tags. -/
theorem Complete.alike_scan {w : Written} (h : w.Complete) (position : Position) :
    List.Forall₂ Segment.Alike w.segments (Segment.scan position w.source) := by
  induction w generalizing position with
  | text run =>
    have hcut : Text.cut Tag.braces run = none :=
      Text.cut_eq_none fun hi => h.1 (hi.subset List.mem_cons_self)
    rw [source, Segment.scan_of_cut_none position hcut]
    exact Segment.consText_alike .nil run
  | tag run t more ih =>
    obtain ⟨⟨hbrace, hslash⟩, ⟨hcomplete, hbare⟩, hmore⟩ := h
    obtain ⟨own, hlexeme, hread⟩ := Tag.readable_settled hcomplete hbare
    have hcut : Text.cut Tag.braces (run ++ t.lexeme ++ more.source) =
        some (run, own ++ more.source) := by
      rw [← t.settled_lexeme, hlexeme, List.append_assoc, List.append_assoc]
      exact Text.cut_braces_append (fun hi => hbrace (hi.subset List.mem_cons_self))
        fun hlast => hbrace (List.mem_of_getLast? hlast)
    rw [source, Segment.scan_of_read position hcut (Segment.backslashes_of_not_mem hslash)
      (hread more.source)]
    exact Segment.consText_alike (.cons (.tag .start _ t.settled) (ih hmore _)) run

end Written

namespace Segment

def bare : Segment → Segment
  | tag position t => tag position t.bare
  | segment => segment

theorem map_bare_consText (run : List Char) (segments : List Segment) :
    (consText run segments).map bare = consText run (segments.map bare) := by
  cases run with
  | nil => rfl
  | cons c run =>
    cases segments with
    | nil => rfl
    | cons segment segments => cases segment <;> rfl

theorem tidy_consText_nil (left : Bool) (run : List Char) :
    tidy left (consText run []) = consText (trimmedBy left false run) [] := by
  cases run with
  | nil => rw [trimmedBy_nil]; rfl
  | cons c run => rfl

theorem tidy_consText_tag (left : Bool) (run : List Char) (position : Position) (t : Tag)
    (segments : List Segment) :
    tidy left (consText run (tag position t :: segments)) =
      consText (trimmedBy left t.trimLeft run) (tag position t :: tidy t.trimRight segments) := by
  cases run with
  | nil => rw [trimmedBy_nil]; rfl
  | cons c run => rfl

end Segment

/-- What a tag asks for does not depend on its tildes. -/
theorem Nesting.run_map_bare (n : Nesting) (segments : List Segment) :
    n.run (segments.map Segment.bare) = n.run segments := by
  induction segments generalizing n with
  | nil => rfl
  | cons segment segments ih =>
    cases segment with
    | text run => exact ih _
    | broken position fault => rfl
    | tag position t =>
      have happly : n.apply position t.bare = n.apply position t := rfl
      simp only [List.map_cons, Segment.bare, run, happly]
      split
      · rfl
      · exact ih _

/-- Every tag of segments that are read asks for something. -/
theorem Nesting.exists_of_mem_tags {n m : Nesting} {segments : List Segment}
    (hrun : n.run segments = .ok m) {t : Tag} (ht : t ∈ Segment.tags segments) :
    ∃ d, Directive.ofTag t = .ok d := by
  induction segments generalizing n with
  | nil => cases ht
  | cons segment segments ih =>
    cases segment with
    | text run => exact ih hrun ht
    | broken position fault => cases hrun
    | tag position t' =>
      obtain ⟨next, happly, hrest⟩ := run_tag_eq_ok hrun
      obtain rfl | ht := List.mem_cons.mp ht
      · obtain ⟨d, hd, -⟩ := apply_eq_ok.mp happly
        exact ⟨d, hd⟩
      · exact ih hrest ht

namespace Written

theorem map_form_tags (w : Written) : (Segment.tags w.segments).map Tag.form = w.forms := by
  induction w with
  | text run =>
    rw [segments, Segment.tags_consText]
    rfl
  | tag run t more ih =>
    rw [segments, Segment.tags_consText, forms, ← ih, ← t.settled_form]
    rfl

/-- Trimming drops the same blanks as the tildes do. -/
theorem map_bare_tidy {w : Written} (h : .plain [] ∉ w.forms) (left : Bool) :
    (Segment.tidy left w.segments).map Segment.bare = (w.trimmed left).segments := by
  induction w generalizing left with
  | text run =>
    rw [segments, Segment.tidy_consText_nil, Segment.map_bare_consText]
    rfl
  | tag run t more ih =>
    rw [forms, List.mem_cons, not_or] at h
    obtain ⟨ht, hmore⟩ := h
    have hsettled : t.settled = t := Tag.settled_eq_self (Ne.symm ht)
    have hbare : t.bare.settled = t.bare := Tag.settled_eq_self (Ne.symm ht)
    rw [segments, Segment.tidy_consText_tag, Segment.map_bare_consText, List.map_cons, hsettled,
      ih hmore, trimmed, segments, hbare]
    rfl

/-- Without tildes nothing more is dropped. -/
theorem tidy_trimmed (w : Written) (left : Bool) :
    Segment.tidy false (w.trimmed left).segments = (w.trimmed left).segments := by
  induction w generalizing left with
  | text run =>
    rw [trimmed, segments, Segment.tidy_consText_nil]
    rfl
  | tag run t more ih =>
    have hbare : t.bare.settled = t.bare := by
      unfold Tag.settled
      split <;> rfl
    have hmore := ih t.trimRight
    rw [trimmed, segments, Segment.tidy_consText_tag, hbare]
    exact congrArg (fun rest => Segment.consText _ (.tag .start t.bare :: rest)) hmore

theorem Complete.ofText_eq_ok_iff {w : Written} (h : w.Complete) {p : Program} :
    Program.ofText w.source = .ok p ↔
      ∃ current, Nesting.run {} (Segment.tidy false w.segments) = .ok ⟨current, []⟩ ∧
        p = .ofBody current.reverse := by
  have halike := Segment.tidy_alike (h.alike_scan .start) false
  rw [Program.ofText_eq_ok_iff, Segment.ofSource]
  constructor
  · rintro ⟨current, hrun, rfl⟩
    exact ⟨current, Nesting.run_alike (Segment.alike_symm halike) hrun, rfl⟩
  · rintro ⟨current, hrun, rfl⟩
    exact ⟨current, Nesting.run_alike halike hrun, rfl⟩

/-- An empty tag is refused, wherever the tilde in it is taken to stand. -/
theorem Complete.ofText_ne_ok {w : Written} (h : w.Complete) (hempty : .plain [] ∈ w.forms)
    (p : Program) : Program.ofText w.source ≠ .ok p := by
  intro hp
  obtain ⟨current, hrun, -⟩ := h.ofText_eq_ok_iff.mp hp
  rw [← map_form_tags] at hempty
  obtain ⟨t, ht, hform⟩ := List.mem_map.mp hempty
  rw [← Segment.tags_tidy false] at ht
  obtain ⟨d, hd⟩ := Nesting.exists_of_mem_tags hrun ht
  rw [Directive.ofTag, hform] at hd
  cases hd

end Written

/-- Tildes are another way to write a trimmed template: either template can be read if the other
one can, and both are read as the same program. -/
theorem Program.ofText_source_iff_trimmed {w : Written} (h : w.Complete) (p : Program) :
    ofText w.source = .ok p ↔ ofText (w.trimmed false).source = .ok p := by
  by_cases hempty : .plain [] ∈ w.forms
  · have htrimmed : .plain [] ∈ (w.trimmed false).forms := by rwa [w.forms_trimmed]
    exact iff_of_false (h.ofText_ne_ok hempty p) ((h.trimmed false).ofText_ne_ok htrimmed p)
  · rw [h.ofText_eq_ok_iff, (h.trimmed false).ofText_eq_ok_iff, w.tidy_trimmed,
      ← Written.map_bare_tidy hempty, Nesting.run_map_bare]

/-- A block around a note and a text, with tildes beside blanks of either kind. -/
def Written.tildes : Written :=
  .tag "a ".toList ⟨true, .plain "#if b".toList, true⟩
    (.tag "\n".toList ⟨true, .dashed "note".toList, false⟩
      (.tag " c ".toList ⟨true, .plain "/if".toList, true⟩ (.text " d".toList)))

theorem Program.ofText_source_iff_trimmed_tildes :
    Written.tildes.Complete ∧
      (Written.tildes.trimmed false).source =
        "a\x7b\x7b#if b\x7d\x7d\x7b\x7b!--note--\x7d\x7d c\x7b\x7b/if\x7d\x7dd".toList ∧
      ∃ p, ofText Written.tildes.source = .ok p ∧
        ofText (Written.tildes.trimmed false).source = .ok p := by
  have hopening : (Form.plain "#if b".toList).Complete ∧ (Form.plain "#if b".toList).Bare :=
    ⟨⟨by decide, by decide, Text.unclosed_of_no_braces (by decide), rfl⟩,
      ⟨by decide, by decide, by decide⟩⟩
  have hnote : (Form.dashed "note".toList).Complete ∧ (Form.dashed "note".toList).Bare :=
    ⟨⟨by decide, by decide⟩, ⟨by decide, by decide, by decide⟩⟩
  have hclosing : (Form.plain "/if".toList).Complete ∧ (Form.plain "/if".toList).Bare :=
    ⟨⟨by decide, by decide, Text.unclosed_of_no_braces (by decide), rfl⟩,
      ⟨by decide, by decide, by decide⟩⟩
  have hcomplete : Written.tildes.Complete :=
    ⟨by decide, hopening, by decide, hnote, by decide, hclosing, by decide, by decide⟩
  obtain ⟨p, hp⟩ : ∃ p, ofText Written.tildes.source = .ok p :=
    ⟨_, hcomplete.ofText_eq_ok_iff.mpr ⟨_, rfl, rfl⟩⟩
  exact ⟨hcomplete, by decide, p, hp, (ofText_source_iff_trimmed hcomplete p).mp hp⟩

end Stencil.Handlebars
