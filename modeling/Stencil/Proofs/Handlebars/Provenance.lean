import Stencil.Proofs.Handlebars.Soundness
import Stencil.Proofs.Handlebars.Gathering

/-!
# Where the texts of a program come from

Every text, word and string of a program that was read stands in the source,
but for backslashes that protect something. So a source without the placeholder
gives a program without it. Words are never empty, and two runs of text are
never neighbours.
-/

namespace Stencil.Handlebars

open Text (Position)

theorem Tag.infix_lexeme (t : Tag) : t.form.body <:+: t.lexeme := by
  have hform : t.form.body <:+: formLexeme t.trimRight t.form := by
    cases t.form with
    | plain body => exact ⟨[], tilde t.trimRight ++ closingBraces, by simp [Form.body, formLexeme]⟩
    | triple body =>
      exact ⟨['{'], '}' :: tilde t.trimRight ++ closingBraces, by simp [Form.body, formLexeme]⟩
    | comment body =>
      exact ⟨['!'], tilde t.trimRight ++ closingBraces, by simp [Form.body, formLexeme]⟩
    | dashed body =>
      exact ⟨['!', '-', '-'], '-' :: '-' :: tilde t.trimRight ++ closingBraces,
        by simp [Form.body, formLexeme]⟩
  exact hform.trans (List.suffix_append _ _).isInfix

/-- A tag that was read and the rest behind it stand in the text it was read from. -/
theorem Tag.resolved_of_read {s rest : List Char} {t : Tag} (h : Resolved s)
    (hread : read s = .ok (t, rest)) : Resolved t.form.body ∧ Resolved rest := by
  have hall : Resolved (t.lexeme ++ rest) := by
    rw [← append_of_read hread]
    exact (Resolved.cons_iff (by decide)).mpr ((Resolved.cons_iff (by decide)).mpr h)
  exact ⟨hall.of_infix (t.infix_lexeme.trans (List.prefix_append _ _).isInfix),
    hall.of_infix (List.suffix_append _ _).isInfix⟩

namespace Segment

/-- The texts and the tags of a segment hold no placeholder. -/
def Sound : Segment → Prop
  | text run => Resolved run
  | tag _ t => Resolved t.form.body
  | broken .. => True

/-- A text is put in front of segments that are no text, or ends in no question mark. -/
theorem sound_consText {segments : List Segment} {run : List Char}
    (h : ∀ segment ∈ segments, segment.Sound) (hrun : Resolved run)
    (htouch : (∃ front c, run = front ++ [c] ∧ c ≠ '?') ∨ ∀ segment ∈ segments.head?,
      segment.isText = false) :
    ∀ segment ∈ consText run segments, segment.Sound := by
  unfold consText
  split
  · exact h
  · next more segments _ =>
    rw [List.forall_mem_cons] at h ⊢
    refine ⟨?_, h.2⟩
    obtain ⟨front, c, rfl, hc⟩ | hfirst := htouch
    · rw [Resolved.concat_iff hc] at hrun
      change Resolved (front ++ [c] ++ more)
      rw [List.append_assoc, List.singleton_append, Resolved.append_cons_iff hc]
      exact ⟨hrun, h.1⟩
    · exact absurd (hfirst _ rfl) (by simp [isText])
  · exact List.forall_mem_cons.mpr ⟨hrun, h⟩

/-- The text of a tag that is not to be read, behind the text before it without its backslash. -/
theorem resolved_protected {before after : List Char} (hbefore : Resolved before)
    (hafter : Resolved after) : Resolved (before.dropLast ++ Tag.braces ++ after) := by
  have hfront : Resolved before.dropLast := hbefore.of_infix (List.dropLast_prefix before).isInfix
  rw [List.append_assoc]
  exact (Resolved.append_cons_iff (by decide)).mpr
    ⟨hfront, (Resolved.cons_iff (by decide)).mpr hafter⟩

theorem sound_scan (position : Position) (s : List Char) (h : Resolved s) :
    ∀ segment ∈ scan position s, segment.Sound := by
  fun_induction scan position s with
  | case1 position s hcut => exact sound_consText (by simp) h (.inr (by simp))
  | case2 position s before after hcut _ _ hclose =>
    obtain ⟨hbefore, hafter⟩ := h.of_cut hcut
    exact sound_consText (by simp) (resolved_protected hbefore hafter) (.inr (by simp))
  | case3 position s before after hcut _ here hslash body rest hclose _ literal ih =>
    obtain ⟨hbefore, hafter⟩ := h.of_cut hcut
    rw [Text.append_of_cutOutside hclose, List.append_assoc] at hafter
    have hrest : Resolved rest :=
      hafter.of_infix ((List.suffix_append Tag.closingBraces rest).trans
        (List.suffix_append body _)).isInfix
    have hliteral : Resolved (before.dropLast ++ Tag.braces ++ (body ++ Tag.closingBraces)) := by
      apply resolved_protected hbefore
      apply hafter.of_infix
      rw [← List.append_assoc]
      exact (List.prefix_append _ _).isInfix
    apply sound_consText (ih hrest)
    · simpa [literal] using hliteral
    · exact .inl ⟨before.dropLast ++ Tag.braces ++ body ++ ['}'], '}',
        by simp [literal, Tag.closingBraces], by decide⟩
  | case4 position s before after hcut _ here hslash ih =>
    obtain ⟨hbefore, hafter⟩ := h.of_cut hcut
    have hrun : Resolved (if backslashes before = 0 then before else before.dropLast) := by
      split
      · exact hbefore
      · exact hbefore.of_infix (List.dropLast_prefix before).isInfix
    refine sound_consText ?_ hrun (.inr ?_)
    · split
      · simp [Sound]
      · next t rest hread =>
        obtain ⟨htag, hrest⟩ := Tag.resolved_of_read hafter hread
        exact List.forall_mem_cons.mpr ⟨htag, ih t rest hread hrest⟩
    · split
      · simp [isText]
      · simp [isText]

theorem infix_trimmedBy (left right : Bool) (run : List Char) :
    trimmedBy left right run <:+: run := by
  have hleft : (if left then Text.trimStart run else run) <:+: run := by
    split
    · exact (Text.isSuffix_trimStart run).isInfix
    · exact List.infix_rfl
  unfold trimmedBy
  simp only
  split
  · exact (Text.isPrefix_trimEnd _).isInfix.trans hleft
  · exact hleft

/-- Trimming joins no texts, as no text stands behind another. -/
theorem sound_tidy {left : Bool} {segments : List Segment} (happart : Apart segments)
    (h : ∀ segment ∈ segments, segment.Sound) : ∀ segment ∈ tidy left segments, segment.Sound := by
  induction segments generalizing left with
  | nil => simp [tidy]
  | cons segment segments ih =>
    rw [List.forall_mem_cons] at h
    have hrest (left : Bool) : ∀ segment ∈ tidy left segments, segment.Sound :=
      ih (apart_tail happart) h.2
    cases segment with
    | tag position t => exact List.forall_mem_cons.mpr ⟨h.1, hrest t.trimRight⟩
    | broken position fault => exact List.forall_mem_cons.mpr ⟨trivial, hrest false⟩
    | text run =>
      have hrun : Resolved run := h.1
      refine sound_consText (hrest false) (hrun.of_infix (infix_trimmedBy left _ run)) (.inr ?_)
      cases segments with
      | nil => simp [tidy]
      | cons next segments =>
        cases next with
        | text more => exact absurd (happart.1 rfl) (by simp [isText])
        | tag position t => simp [tidy, isText]
        | broken position fault => simp [tidy, isText]

theorem sound_ofSource {s : List Char} (h : Resolved s) :
    ∀ segment ∈ ofSource s, segment.Sound :=
  sound_tidy (apart_scan .start s) (sound_scan .start s h)

end Segment

theorem inherits_sound : Inherits Statement.Sound Opening.Sound := by
  intro opening program inverse hopening hnames hprogram hinverse
  exact ⟨hopening.helper, hopening.args, hnames ▸ hopening.blockParams, hprogram,
    fun other hother => (hinverse other hother).2⟩

theorem Directive.Sound.keeps {d : Directive} (h : d.Sound) :
    d.Keeps Statement.Sound Opening.Sound := by
  cases d with
  | chain call => exact fun _ hopening => Opening.sound_parse h hopening
  | _ => exact h

theorem Segment.Sound.keeps {segment : Segment} (h : segment.Sound) :
    segment.Keeps Statement.Sound Opening.Sound := by
  cases segment with
  | text run => simpa [Keeps, Statement.Sound, Sound] using h
  | tag position t => exact fun _ hd => (Directive.sound_ofTag h hd).keeps
  | broken position fault => trivial

/-- A source without the placeholder is read as a program without it. -/
theorem Program.sound_parse {source : String} {p : Program} (h : Resolved source.toList)
    (hparse : Program.parse source = .ok p) : p.Sound := by
  have hgathered := Program.gathered_ofText inherits_sound
    (fun segment hsegment => (Segment.sound_ofSource h segment hsegment).keeps) hparse
  exact ⟨hgathered.apart, hgathered.all⟩

end Stencil.Handlebars
