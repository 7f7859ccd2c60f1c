import Stencil.Proofs.Handlebars.Seam

/-!
# What a tag is read from

A tag is read off its own characters, whatever follows them. So a text leads to
the segments that it holds when any tag at all stands behind it, and one tag can
be replaced by others without changing how the text before it is scanned. The
position of a tag tells which text leads to it.
-/

namespace Stencil.Text

namespace Position

def Behind (p q : Position) : Prop :=
  q.line < p.line ∨ q.line = p.line ∧ q.column < p.column

theorem behind_next (p : Position) (c : Char) : (p.next c).Behind p := by
  unfold next Behind
  split
  · exact .inl (Nat.lt_succ_self p.line)
  · exact .inr ⟨rfl, Nat.lt_succ_self p.column⟩

theorem Behind.trans {p q r : Position} (h : p.Behind q) (h' : q.Behind r) : p.Behind r := by
  unfold Behind at *
  omega

theorem behind_after (p : Position) {s : List Char} (h : s ≠ []) : (p.after s).Behind p := by
  induction s generalizing p with
  | nil => exact absurd rfl h
  | cons c s ih =>
    rw [after_cons]
    cases s with
    | nil => exact behind_next p c
    | cons d s => exact (ih (p.next c) (List.cons_ne_nil d s)).trans (behind_next p c)

theorem eq_nil_of_after_eq {p : Position} {s : List Char} (h : p.after s = p) : s = [] := by
  by_contra hs
  have hbehind := behind_after p hs
  rw [h] at hbehind
  unfold Behind at hbehind
  omega

/-- The places in a text tell how much of it has been read. -/
theorem eq_of_after_eq {p : Position} {s a b : List Char} (ha : a <+: s) (hb : b <+: s)
    (h : p.after a = p.after b) : a = b := by
  obtain ⟨c, rfl⟩ | ⟨c, rfl⟩ := List.prefix_or_prefix_of_prefix ha hb
  · rw [after_append] at h
    rw [eq_nil_of_after_eq h.symm, List.append_nil]
  · rw [after_append] at h
    rw [eq_nil_of_after_eq h, List.append_nil]

end Position

end Stencil.Text

namespace Stencil.Handlebars

open Text (Position)

namespace Tag

theorem plain_of_readForm {s rest body : List Char} {right : Bool}
    (h : readForm s = .ok (.plain body, right, rest)) :
    ∃ whole, Text.cutOutside closingBraces .outside s = some (whole, rest) ∧
      dropTildeEnd whole = (body, right) := by
  unfold readForm at h
  split at h
  · cases h
  · split at h <;> cases h
  · split at h <;> cases h
  · split at h
    · cases h
    · split at h <;> cases h
  · split at h
    · cases h
    · next whole after hcut =>
      cases h
      exact ⟨whole, hcut, rfl⟩

theorem triple_of_readForm {s rest body : List Char} {right : Bool}
    (h : readForm s = .ok (.triple body, right, rest)) :
    ∃ inner, s = '{' :: inner ∧ Text.cutOutside ['}'] .outside inner =
      some (body, tilde right ++ closingBraces ++ rest) := by
  unfold readForm at h
  split at h
  · cases h
  · split at h <;> cases h
  · split at h <;> cases h
  · next inner _ =>
    split at h
    · cases h
    · next whole after hcut =>
      split at h
      · cases h
      · next hclose =>
        cases h
        refine ⟨inner, rfl, ?_⟩
        rw [List.append_assoc, ← Text.eq_append_of_behind? hclose, dropTilde_append, hcut]
  · split at h <;> cases h

theorem cutDashes_replace {s body rest : List Char} {right : Bool}
    (h : cutDashes s = some (body, right, rest)) (more : List Char) :
    cutDashes (body ++ '-' :: '-' :: tilde right ++ closingBraces ++ more) =
      some (body, right, more) := by
  induction s generalizing body with
  | nil => cases h
  | cons c s ih =>
    rw [cutDashes] at h
    split at h
    · cases h
      simp [cutDashes, Text.behind?, tilde, closingBraces]
    · next hshort =>
      split at h
      · cases h
        simp [cutDashes, Text.behind?, tilde, closingBraces]
      · next hlong =>
        obtain ⟨⟨front, found, back⟩, hcut, hpair⟩ := Option.map_eq_some_iff.mp h
        cases hpair
        have hlength : 5 ≤ (c :: (front ++ '-' :: '-' :: tilde right ++ closingBraces)).length := by
          simp only [closingBraces, List.length_append, List.length_cons]
          omega
        rw [append_of_cutDashes hcut, ← List.cons_append] at hshort hlong
        have hshort' := Text.behind?_replace hshort (Nat.le_of_succ_le hlength) more
        have hlong' := Text.behind?_replace hlong hlength more
        simp only [List.cons_append] at hshort' hlong' ⊢
        rw [cutDashes, hshort', hlong', ih hcut]
        rfl

theorem head?_replace {front rest : List Char} (hfront : front ≠ []) (more : List Char) :
    (front ++ more).head? = (front ++ rest).head? := by
  obtain ⟨c, front, rfl⟩ := List.exists_cons_of_ne_nil hfront
  rfl

/-- What follows a tag has no part in its form. -/
theorem readForm_replace {s rest : List Char} {form : Form} {right : Bool}
    (h : readForm s = .ok (form, right, rest)) (more : List Char) :
    readForm (formLexeme right form ++ more) = .ok (form, right, more) := by
  unfold readForm at h
  split at h
  · cases h
  · split at h
    · cases h
    · next hcut =>
      cases h
      have hmore := cutDashes_replace hcut more
      simp only [formLexeme, List.cons_append, readForm] at hmore ⊢
      rw [hmore]
  · next s hdashes =>
    split at h
    · cases h
    · next body after hcut =>
      cases h
      have hlexeme : formLexeme (dropTildeEnd body).2 (.comment (dropTildeEnd body).1) =
          '!' :: (body ++ closingBraces) := by
        conv_rhs => rw [← dropTildeEnd_append body]
        rfl
      rw [hlexeme, List.cons_append]
      apply readForm_comment
      · have hs := Text.append_of_cut hcut
        intro hmark
        have hlength : ['-', '-'].length ≤ (body ++ closingBraces).length := by
          simp [closingBraces]
        obtain ⟨t, ht⟩ :=
          List.prefix_of_prefix_length_le hmark (List.prefix_append _ _) hlength
        exact hdashes (t ++ rest) (by rw [hs, ← ht]; rfl)
      · have hmore := Text.cut_pair_append (Text.not_infix_of_cut hcut) more
        simpa [closingBraces] using hmore
  · next s hbrace =>
    split at h
    · cases h
    · next body after hcut =>
      split at h
      · cases h
      · next hclose =>
        cases h
        have hs := Text.append_of_cutOutside hcut
        have hlexeme : formLexeme (dropTilde after).1 (.triple body) ++ more =
            '{' :: (body ++ ['}'] ++ (tilde (dropTilde after).1 ++ (closingBraces ++ more))) := by
          simp [formLexeme]
        have hdrop : dropTilde (tilde (dropTilde after).1 ++ (closingBraces ++ more)) =
            ((dropTilde after).1, closingBraces ++ more) := by
          cases (dropTilde after).1 <;> rfl
        have hread := readForm_triple (s := body ++ ['}'] ++ _) ?_
          (Text.cutOutside_replace (by simp) hcut _)
          (by rw [hdrop]; exact Text.behind?_self_append _ more)
        · rw [hlexeme, hread, hdrop]
        · rw [head?_replace (by simp), ← hs]
          intro hhead
          obtain ⟨t, rfl⟩ := List.head?_eq_some_iff.mp hhead
          exact hbrace t rfl
  · next hraw hdashes hcomment htriple =>
    split at h
    · cases h
    · next body after hcut =>
      cases h
      have hs := Text.append_of_cutOutside hcut
      have hlexeme : formLexeme (dropTildeEnd body).2 (.plain (dropTildeEnd body).1) =
          body ++ closingBraces := by
        conv_rhs => rw [← dropTildeEnd_append body]
        rfl
      have hhead : ∀ c, (body ++ closingBraces ++ more).head? = some c →
          ∃ t, s = c :: t := by
        intro c hc
        rw [head?_replace (by simp [closingBraces]), ← hs] at hc
        exact List.head?_eq_some_iff.mp hc
      rw [hlexeme]
      apply readForm_plain
      · intro hc
        obtain ⟨t, ht⟩ := hhead _ hc
        exact hcomment t ht
      · intro hc
        obtain ⟨t, ht⟩ := hhead _ hc
        exact htriple t ht
      · exact Text.cutOutside_replace (by simp [closingBraces]) hcut more

theorem dropTilde_of_head? {s : List Char} (h : s.head? ≠ some '~') : dropTilde s = (false, s) := by
  unfold dropTilde
  split
  · next t => exact absurd rfl h
  · rfl

theorem head?_of_dropTilde {s : List Char} (h : (dropTilde s).1 = false) : s.head? ≠ some '~' := by
  intro hs
  obtain ⟨t, rfl⟩ := List.head?_eq_some_iff.mp hs
  cases h

theorem formLexeme_ne_nil (right : Bool) (form : Form) : formLexeme right form ≠ [] := by
  cases form <;> simp [formLexeme, closingBraces]

/-- The tag is read from its own spelling, whatever follows it. -/
def Readable (t : Tag) : Prop :=
  ∃ own, t.lexeme = braces ++ own ∧ ∀ rest, read (own ++ rest) = .ok (t, rest)

theorem readable_of_read {s rest : List Char} {t : Tag} (h : read s = .ok (t, rest)) :
    t.Readable := by
  unfold read at h
  split at h
  · cases h
  · next form right rest hform =>
    cases h
    have hs := dropTilde_append s
    rw [append_of_readForm hform, ← List.append_assoc] at hs
    refine ⟨_, List.append_assoc _ _ _, fun more => ?_⟩
    have hdrop : dropTilde (tilde (dropTilde s).1 ++ formLexeme right form ++ more) =
        ((dropTilde s).1, formLexeme right form ++ more) := by
      cases htilde : (dropTilde s).1 with
      | true => rfl
      | false =>
        have hhead := head?_of_dropTilde htilde
        rw [← hs, htilde] at hhead
        apply dropTilde_of_head?
        exact (head?_replace (formLexeme_ne_nil right form) more).trans_ne hhead
    rw [read, hdrop, readForm_replace hform more]

theorem lexeme_ofInner (i : List Char) : (ofInner i).lexeme = inBraces i := by
  simp [ofInner, lexeme, formLexeme, tilde, inBraces]

theorem readable_ofInner {i : List Char}
    (h : ∀ rest, read (i ++ closingBraces ++ rest) = .ok (ofInner i, rest)) :
    (ofInner i).Readable :=
  ⟨i ++ closingBraces, by rw [lexeme_ofInner, inBraces, List.append_assoc], h⟩

end Tag

namespace Segment

/-- Scanning the text in front of any tag gives these segments, and then the tag. -/
def Leads (position : Position) (before : List Char) (front : List Segment) : Prop :=
  ∀ t : Tag, t.Readable → ∀ rest,
    scan position (before ++ t.lexeme ++ rest) =
      front ++ tag (position.after before) t :: scan ((position.after before).after t.lexeme) rest

theorem consText_append_tag (run : List Char) (front : List Segment) (position : Position) (t : Tag)
    (more : List Segment) :
    consText run (front ++ tag position t :: more) =
      consText run front ++ tag position t :: more := by
  cases run with
  | nil => rfl
  | cons c run =>
    cases front with
    | nil => rfl
    | cons segment front => cases segment <;> rfl

/-- A tag behind text stands among the segments that the text was put in front of. -/
theorem exists_of_consText_eq {run : List Char} {segments front more : List Segment}
    {position : Position} {t : Tag}
    (h : consText run segments = front ++ tag position t :: more) :
    ∃ inner, segments = inner ++ tag position t :: more ∧ front = consText run inner := by
  cases run with
  | nil => exact ⟨front, h, rfl⟩
  | cons c run =>
    cases segments with
    | nil =>
      cases front with
      | nil => cases h
      | cons first front => simp [consText] at h
    | cons segment segments =>
      cases segment with
      | text run' =>
        cases front with
        | nil => cases h
        | cons first front =>
          obtain ⟨rfl, rfl⟩ := List.cons.inj h
          exact ⟨.text run' :: front, rfl, rfl⟩
      | _ =>
        cases front with
        | nil => cases h
        | cons first front =>
          obtain ⟨rfl, hinner⟩ := List.cons.inj h
          refine ⟨front, hinner, ?_⟩
          cases front with
          | nil => rfl
          | cons second front =>
            cases (List.cons.inj hinner).1
            rfl

section
variable {position : Position} {before before' after rest : List Char} {front : List Segment}
variable (hfirst : ¬ Tag.braces <:+: before ++ ['{'])
include hfirst

theorem cut_braces (after : List Char) :
    Text.cut Tag.braces (before ++ (Tag.braces ++ after)) = some (before, after) :=
  Text.cut_pair_append hfirst after

theorem Leads.text (hslash : backslashes before ≠ 1) :
    Leads position before (consText (unslashed before) []) := by
  rintro t ⟨own, hlexeme, hread⟩ rest
  have hcut := cut_braces hfirst (own ++ rest)
  rw [← List.append_assoc Tag.braces, ← hlexeme, ← List.append_assoc] at hcut
  rw [scan_of_slashed position hcut hslash, scanTag_of_read (hread rest), ← consText_append_tag,
    List.nil_append]

theorem Leads.tag {t : Tag} (hslash : backslashes before ≠ 1) (ht : t.Readable)
    (hlead : Leads ((position.after before).after t.lexeme) before' front) :
    Leads position (before ++ t.lexeme ++ before')
      (consText (unslashed before) (.tag (position.after before) t :: front)) := by
  intro t' ht' rest'
  obtain ⟨own, hlexeme, hread⟩ := ht
  have hcut := cut_braces hfirst (own ++ (before' ++ t'.lexeme ++ rest'))
  rw [← List.append_assoc Tag.braces, ← hlexeme] at hcut
  have hsource : before ++ t.lexeme ++ before' ++ t'.lexeme ++ rest' =
      before ++ (t.lexeme ++ (before' ++ t'.lexeme ++ rest')) := by
    simp
  rw [hsource, scan_of_slashed position hcut hslash, scanTag_of_read (hread _), hlead t' ht' rest',
    ← List.cons_append, consText_append_tag]
  simp

theorem Leads.shielded {body : List Char} (hslash : backslashes before = 1)
    (hclose : Text.cutOutside Tag.closingBraces .outside after = some (body, rest))
    (hlead : Leads ((position.after before).after (inBraces body)) before' front) :
    Leads position (before ++ inBraces body ++ before')
      (consText (before.dropLast ++ inBraces body) front) := by
  intro t' ht' rest'
  have hcut := cut_braces hfirst (body ++ Tag.closingBraces ++ (before' ++ t'.lexeme ++ rest'))
  have hclose' := Text.cutOutside_replace (by simp [Tag.closingBraces]) hclose
    (before' ++ t'.lexeme ++ rest')
  have hsource : before ++ inBraces body ++ before' ++ t'.lexeme ++ rest' = before ++
      (Tag.braces ++ (body ++ Tag.closingBraces ++ (before' ++ t'.lexeme ++ rest'))) := by
    simp [inBraces]
  rw [hsource, scan_of_shielded position hcut hslash hclose', hlead t' ht' rest',
    consText_append_tag]
  simp

end

theorem leads_nil (position : Position) : Leads position [] [] :=
  Leads.text (by decide) (by decide)

/-- A tag that is found stands behind a text that leads to it, and the scan goes on behind it. -/
theorem exists_leads {position here : Position} {s : List Char} {front more : List Segment}
    {t : Tag} (h : scan position s = front ++ tag here t :: more) :
    ∃ before rest, s = before ++ t.lexeme ++ rest ∧ here = position.after before ∧
      t.Readable ∧ more = scan (here.after t.lexeme) rest ∧ Leads position before front := by
  fun_induction scan position s generalizing front with
  | case1 position s hcut =>
    obtain ⟨inner, hinner, -⟩ := exists_of_consText_eq h
    simp at hinner
  | case2 position s before after hcut _ hslash hclose =>
    obtain ⟨inner, hinner, -⟩ := exists_of_consText_eq h
    simp at hinner
  | case3 position s before after hcut _ here' hslash body rest hclose _ literal =>
    rename_i ih
    obtain ⟨inner, hinner, rfl⟩ := exists_of_consText_eq h
    obtain ⟨before', rest', rfl, rfl, ht, hmore, hlead⟩ := ih hinner
    refine ⟨before ++ inBraces body ++ before', rest', ?_, ?_, ht, hmore, ?_⟩
    · rw [Text.append_of_cut hcut, Text.append_of_cutOutside hclose]
      simp [inBraces]
    · simp [literal, here', inBraces]
    · exact .shielded (Text.not_infix_of_cut hcut) hslash hclose hlead
  | case4 position s before after hcut _ here' hslash =>
    rename_i ih
    have hs := Text.append_of_cut hcut
    have hfirst := Text.not_infix_of_cut hcut
    obtain ⟨inner, hinner, rfl⟩ := exists_of_consText_eq h
    split at hinner
    · next fault hread =>
      cases inner with
      | nil => cases hinner
      | cons first inner => simp at hinner
    · next t' rest hread =>
      rw [List.append_assoc, Tag.append_of_read hread, ← List.append_assoc] at hs
      cases inner with
      | nil =>
        obtain ⟨hhead, rfl⟩ := List.cons.inj hinner
        obtain ⟨rfl, rfl⟩ := Segment.tag.inj hhead
        exact ⟨before, rest, hs, rfl, Tag.readable_of_read hread, rfl, .text hfirst hslash⟩
      | cons first inner =>
        obtain ⟨rfl, htail⟩ := List.cons.inj hinner
        obtain ⟨before', rest', rfl, rfl, ht, hmore, hlead⟩ := ih t' rest hread htail
        refine ⟨before ++ t'.lexeme ++ before', rest', ?_, ?_, ht, hmore, ?_⟩
        · rw [hs]
          simp
        · simp [here']
        · exact .tag hfirst hslash (Tag.readable_of_read hread) hlead

/-- The position of a tag tells what leads to it. -/
theorem leads_of_scan {position : Position} {before rest : List Char} {front more : List Segment}
    {t : Tag} (h : scan position (before ++ t.lexeme ++ rest) =
      front ++ tag (position.after before) t :: more) :
    Leads position before front ∧ t.Readable ∧
      more = scan ((position.after before).after t.lexeme) rest := by
  obtain ⟨before', rest', hs, hposition, ht, hmore, hlead⟩ := exists_leads h
  rw [List.append_assoc, List.append_assoc] at hs
  obtain rfl : before = before' :=
    Position.eq_of_after_eq ⟨_, rfl⟩ ⟨_, hs.symm⟩ hposition
  obtain rfl : rest = rest' := List.append_cancel_left (List.append_cancel_left hs)
  exact ⟨hlead, ht, hmore⟩

section
variable {t : Tag} (htrim : t.trimLeft = false)
include htrim

theorem wantsTrim_append_tag (front : List Segment) (position : Position) (more : List Segment) :
    wantsTrim (front ++ tag position t :: more) = wantsTrim front := by
  cases front with
  | nil => exact htrim
  | cons segment front => cases segment <;> rfl

/-- A tag without a left tilde keeps what stands before it apart from what follows. -/
theorem tidy_append_tag (left : Bool) (front : List Segment) (position : Position)
    (more : List Segment) :
    tidy left (front ++ tag position t :: more) =
      tidy left front ++ tag position t :: tidy t.trimRight more := by
  induction front generalizing left with
  | nil => rfl
  | cons segment front ih =>
    cases segment with
    | text run =>
      rw [List.cons_append, tidy, tidy, wantsTrim_append_tag htrim, ih, consText_append_tag]
    | tag position' t' => exact congrArg (tag position' t' :: ·) (ih t'.trimRight)
    | broken position' fault => exact congrArg (broken position' fault :: ·) (ih false)

end

theorem tidy_alike {first second : List Segment} (h : List.Forall₂ Alike first second)
    (left : Bool) : List.Forall₂ Alike (tidy left first) (tidy left second) := by
  induction h generalizing left with
  | nil => exact .nil
  | @cons a b first second halike hrest ih =>
    cases halike with
    | text run =>
      have hwants : wantsTrim first = wantsTrim second := by
        cases hrest with
        | nil => rfl
        | cons hnext _ => cases hnext <;> rfl
      rw [tidy, tidy, hwants]
      exact consText_alike (ih false) _
    | tag p q t => exact .cons (.tag p q t) (ih t.trimRight)
    | broken p q fault => exact .cons (.broken p q fault) (ih false)

theorem alike_refl (segments : List Segment) : List.Forall₂ Alike segments segments :=
  List.forall₂_same.mpr fun segment _ => by cases segment <;> constructor

theorem alike_symm {first second : List Segment} (h : List.Forall₂ Alike first second) :
    List.Forall₂ Alike second first := by
  induction h with
  | nil => exact .nil
  | cons hfirst hrest ih =>
    refine .cons ?_ ih
    cases hfirst with
    | text run => exact .text run
    | tag p q t => exact .tag q p t
    | broken p q fault => exact .broken q p fault

theorem alike_trans {first second third : List Segment} (h : List.Forall₂ Alike first second)
    (h' : List.Forall₂ Alike second third) : List.Forall₂ Alike first third := by
  induction h generalizing third with
  | nil => exact h'
  | cons hfirst hrest ih =>
    cases h' with
    | cons hsecond hmore =>
      refine .cons ?_ (ih hmore)
      cases hfirst with
      | text run => exact hsecond
      | tag p q t => cases hsecond; exact .tag ..
      | broken p q fault => cases hsecond; exact .broken ..

theorem exists_of_alike_tag {more segments : List Segment} {p : Position} {t : Tag}
    (h : List.Forall₂ Alike (tag p t :: more) segments) :
    ∃ q more', segments = tag q t :: more' ∧ List.Forall₂ Alike more more' := by
  cases h with
  | cons hfirst hrest =>
    cases hfirst with
    | tag p q t => exact ⟨q, _, rfl, hrest⟩

theorem exists_of_alike_append_tag {front more segments : List Segment} {p : Position} {t : Tag}
    (h : List.Forall₂ Alike (front ++ tag p t :: more) segments) :
    ∃ front' q more', segments = front' ++ tag q t :: more' ∧ List.Forall₂ Alike front front' ∧
      List.Forall₂ Alike more more' := by
  induction front generalizing segments with
  | nil =>
    obtain ⟨q, more', hsplit, hmore⟩ := exists_of_alike_tag h
    exact ⟨[], q, more', hsplit, .nil, hmore⟩
  | cons segment front ih =>
    cases h with
    | cons hfirst hrest =>
      obtain ⟨front', q, more', rfl, hfront, hmore⟩ := ih hrest
      exact ⟨_ :: front', q, more', rfl, .cons hfirst hfront, hmore⟩

/-- The same segments are found in front of a tag wherever the text stands. -/
theorem exists_tidy_scan {here : Position} {before : List Char} {front : List Segment}
    (h : Leads here before front) {t : Tag} (ht : t.Readable) (htrim : t.trimLeft = false)
    (rest : List Char) (position : Position) :
    ∃ front' q behind more,
      tidy false (scan position (before ++ t.lexeme ++ rest)) = front' ++ tag q t :: more ∧
      List.Forall₂ Alike (tidy false front) front' ∧
      List.Forall₂ Alike (tidy t.trimRight (scan behind rest)) more := by
  have halike := tidy_alike (scan_alike (before ++ t.lexeme ++ rest) here position) false
  rw [h t ht, tidy_append_tag htrim] at halike
  obtain ⟨front', q, more, hsplit, hfront, hmore⟩ := exists_of_alike_append_tag halike
  exact ⟨front', q, _, more, hsplit, hfront, hmore⟩

end Segment

end Stencil.Handlebars
