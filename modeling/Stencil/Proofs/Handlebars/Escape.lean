import Stencil.Proofs.Handlebars.Gathering
import Stencil.Proofs.Handlebars.Locality
import Stencil.Proofs.Placeholder

/-!
# Escaped tags

A backslash turns the tag behind it into text, up to the closing braces that
would end it. These are looked for as in a tag that is read, so an apostrophe in
the text counts as the beginning of a string. If that string is not closed before
the braces, the tag is taken to go on behind them, and what is passed over until
other closing braces are found becomes text as well. Where that part of the
template holds no tag of its own, nothing is lost.
-/

namespace Stencil.Handlebars

open Text (Position Closed)

/-- What an escaped tag turns into text of the template behind it: nothing if its strings are
closed, and else all up to the first closing braces outside of strings. -/
def hiddenBehind (inner rest : List Char) : List Char :=
  if Closed inner then []
  else
    match Text.cutOutside Tag.closingBraces
      (Text.Quoting.outside.after (inner ++ Tag.closingBraces)) rest with
    | none => rest
    | some (front, _) => front ++ Tag.closingBraces

/-- Statements behind a text, which is joined to a text that they begin with. -/
def behindText (run : List Char) : List Statement → List Statement
  | .content more :: body => .content (String.ofList run ++ more) :: body
  | body => .content (String.ofList run) :: body

namespace Segment

theorem trimmedBy_append_of_last {run : List Char} {c : Char} (hlast : run.getLast? = some c)
    (hc : Text.isBlank c = false) (right : Bool) (more : List Char) :
    trimmedBy false right (run ++ more) = run ++ trimmedBy false right more := by
  have hend : Text.trimEnd run = run := by
    apply Text.trimEnd_of_last
    rintro d hd
    rw [hlast] at hd
    cases hd
    exact hc
  cases right with
  | false => rfl
  | true =>
    change Text.trimEnd (run ++ more) = run ++ Text.trimEnd more
    rw [Text.trimEnd_append]
    split
    · next hnil => rw [hend, hnil, List.append_nil]
    · rfl

/-- A text in front that does not end in a blank is kept, and what is behind it is trimmed as it
would be without it. -/
theorem tidy_consText_of_last {run : List Char} {c : Char} (hlast : run.getLast? = some c)
    (hc : Text.isBlank c = false) (segments : List Segment) :
    tidy false (consText run segments) = consText run (tidy false segments) := by
  have htrimmed := trimmedBy_append_of_last hlast hc
  have hkept (right : Bool) : trimmedBy false right run = run := by
    have hnil := htrimmed right []
    rwa [trimmedBy_nil, List.append_nil] at hnil
  cases run with
  | nil => cases hlast
  | cons d run =>
    cases segments with
    | nil => rfl
    | cons segment segments =>
      cases segment with
      | text more =>
        change tidy false (text (d :: run ++ more) :: segments) = _
        rw [tidy_text, tidy_text, htrimmed, consText_consText]
      | tag position t =>
        change tidy false (text (d :: run) :: tag position t :: segments) = _
        rw [tidy_text, hkept]
      | broken position fault => rfl

theorem exists_consText_eq {run : List Char} (hrun : run ≠ []) (segments : List Segment) :
    ∃ more rest, consText run segments = text (run ++ more) :: rest := by
  obtain ⟨c, run, rfl⟩ := List.exists_cons_of_ne_nil hrun
  rcases segments with _ | ⟨_ | _ | _, segments⟩
  · exact ⟨[], [], by rw [List.append_nil]; rfl⟩
  · exact ⟨_, segments, rfl⟩
  · exact ⟨[], _, by rw [List.append_nil]; rfl⟩
  · exact ⟨[], _, by rw [List.append_nil]; rfl⟩

theorem prefix_trimmedBy (right : Bool) (run : List Char) : trimmedBy false right run <+: run := by
  cases right with
  | false => exact List.prefix_rfl
  | true => exact Text.isPrefix_trimEnd run

/-- In front of something that is no text, trimming leaves at most the text that stands there. -/
theorem prefix_of_tidy_consText {run run' : List Char} {segment : Segment}
    {segments rest : List Segment} (hsegment : segment.isText = false)
    (h : tidy false (consText run (segment :: segments)) = text run' :: rest) : run' <+: run := by
  have hfirst : ∀ left, ∃ more, tidy left (segment :: segments) = segment :: more := by
    cases segment with
    | text run => cases hsegment
    | tag position t => exact fun _ => ⟨_, rfl⟩
    | broken position fault => exact fun _ => ⟨_, rfl⟩
  have hcons (part : List Char) (more : List Segment)
      (hpart : consText part (segment :: more) = text run' :: rest) : run' = part := by
    cases part with
    | nil =>
      cases hpart
      cases hsegment
    | cons c part =>
      cases segment with
      | text run => cases hsegment
      | _ => exact (Segment.text.inj (List.cons.inj hpart).1).symm
  obtain ⟨more, hmore⟩ := hfirst false
  cases run with
  | nil =>
    obtain rfl := hcons [] more (hmore.symm.trans h)
    exact List.prefix_rfl
  | cons c run =>
    have htext : consText (c :: run) (segment :: segments) =
        text (c :: run) :: segment :: segments := by
      cases segment with
      | text run => cases hsegment
      | _ => rfl
    rw [htext, tidy_text, hmore] at h
    rw [hcons _ _ h]
    exact prefix_trimmedBy _ _

/-- The text that a template begins with does not go on behind the first braces: they begin a tag,
or the backslash in front of them is missing. -/
theorem not_prefix_of_tidy_scan {s before after run : List Char} {rest : List Segment}
    {position : Position} (hcut : Text.cut Tag.braces s = some (before, after))
    (h : tidy false (scan position s) = text run :: rest) : ¬ before ++ ['{'] <+: run := by
  by_cases hone : backslashes before = 1
  · obtain ⟨front, rfl⟩ : ∃ front, before = front ++ ['\\'] := by
      rw [← List.getLast?_eq_some_iff]
      by_contra hlast
      rw [backslashes_eq_zero hlast] at hone
      cases hone
    have hshown : ∃ more segments, scan position s =
        consText (front ++ Tag.braces) (consText more segments) := by
      cases hclose : Text.cutOutside Tag.closingBraces .outside after with
      | none =>
        refine ⟨after, [], ?_⟩
        rw [scan_of_unclosed position hcut hone hclose, List.dropLast_concat, consText_consText]
      | some pair =>
        obtain ⟨body, behind⟩ := pair
        refine ⟨body ++ Tag.closingBraces,
          scan ((position.after (front ++ ['\\'])).after (inBraces body)) behind, ?_⟩
        rw [scan_of_shielded position hcut hone hclose, List.dropLast_concat, consText_consText,
          inBraces, ← List.append_assoc, ← List.append_assoc, ← List.append_assoc]
    obtain ⟨more, segments, hscan⟩ := hshown
    have hlast : (front ++ Tag.braces).getLast? = some '{' := by simp [Tag.braces]
    rw [hscan, tidy_consText_of_last hlast (by decide)] at h
    have hne : front ++ Tag.braces ≠ [] := by simp [Tag.braces]
    obtain ⟨more', rest', htext⟩ := exists_consText_eq hne (tidy false (consText more segments))
    rw [htext] at h
    obtain rfl := Segment.text.inj (List.cons.inj h).1
    rintro ⟨tail, htail⟩
    simp [Tag.braces] at htail
  · have hread : ∃ segment segments, segment.isText = false ∧ scan position s =
        consText (unslashed before) (segment :: segments) := by
      rw [scan_of_slashed position hcut hone]
      cases hread : Tag.read after with
      | error fault =>
        rw [scanTag_of_read_error hread]
        exact ⟨_, _, rfl, rfl⟩
      | ok pair =>
        rw [scanTag_of_read hread]
        exact ⟨_, _, rfl, rfl⟩
    obtain ⟨segment, segments, hsegment, hscan⟩ := hread
    rw [hscan] at h
    have hrun := (prefix_of_tidy_consText hsegment h).length_le
    have hunslashed : (unslashed before).length ≤ before.length := by
      unfold unslashed
      split
      · exact Nat.le_refl _
      · exact (List.dropLast_prefix before).length_le
    intro hprefix
    have hlength := hprefix.length_le
    simp only [List.length_append, List.length_singleton] at hlength
    omega

section
variable {a b : List Char} (ha : ¬ Tag.braces <:+: a) (hslash : a.getLast? ≠ some '\\')
variable (hb : ¬ Tag.closingBraces <:+: b) (hlast : b.getLast? ≠ some '}')

omit ha hslash in
include hb hlast in
/-- The end of an escaped tag, if it is found behind a string that is left open. -/
theorem cutOutside_of_not_closed (hopen : ¬ Closed b) (r : List Char) :
    Text.cutOutside Tag.closingBraces .outside (b ++ (Tag.closingBraces ++ r)) =
      (Text.cutOutside Tag.closingBraces
        (Text.Quoting.outside.after (b ++ Tag.closingBraces)) r).map fun (front, back) =>
          (b ++ (Tag.closingBraces ++ front), back) := by
  have hbehind : Text.cutOutside Tag.closingBraces (Text.Quoting.outside.after b)
      (Tag.closingBraces ++ r) = (Text.cutOutside Tag.closingBraces
        ((Text.Quoting.outside.after b).after Tag.closingBraces) r).map fun (front, back) =>
          (Tag.closingBraces ++ front, back) := by
    apply Text.cutOutside_append_left
    rintro u v huv - hu
    -- The braces hold no quote that would close the string.
    have hbraces : ∀ c ∈ Tag.closingBraces, Text.isQuote c = false := by
      simp [Tag.closingBraces, Text.isQuote]
    have hquote : ∀ c ∈ u, Text.isQuote c = false := fun c hc =>
      hbraces c (by rw [huv]; exact List.mem_append_left v hc)
    exact absurd (((Text.proper_after b).after_eq_outside_iff hquote).mp hu) hopen
  have hunclosed : Text.Unclosed .outside b := Text.unclosed_of_no_braces hb
  have hfront := Text.cutOutside_unclosed_append hunclosed hlast (Tag.closingBraces ++ r)
  rw [← Tag.closingBraces, hbehind, ← Text.Quoting.after_append, Option.map_map] at hfront
  exact hfront

include ha hslash hb hlast in
/-- An escaped tag and what it hides are scanned to text, and the scan goes on behind. -/
theorem scan_escaped (r : List Char) (position : Position) :
    ∃ there back, r = hiddenBehind b r ++ back ∧
      ((∀ c ∈ (hiddenBehind b r).getLast?, c = '}') ∨ back = []) ∧
      scan position (a ++ '\\' :: inBraces b ++ r) =
        consText (a ++ inBraces b ++ hiddenBehind b r) (scan there back) := by
  have hcut : Text.cut Tag.braces (a ++ '\\' :: inBraces b ++ r) =
      some (a ++ ['\\'], b ++ (Tag.closingBraces ++ r)) := by
    have hfirst : ¬ Tag.braces <:+: a ++ ['\\'] := by
      rw [Text.infix_append_cons_iff (by decide) (by decide)]
      simpa [Tag.braces] using ha
    have hbraces : Text.cut Tag.braces
        (a ++ ['\\'] ++ '{' :: '{' :: (b ++ (Tag.closingBraces ++ r))) =
        some (a ++ ['\\'], b ++ (Tag.closingBraces ++ r)) :=
      Text.cut_braces_append hfirst (by simp)
    simpa [inBraces, Tag.braces] using hbraces
  have hone : backslashes (a ++ ['\\']) = 1 := backslashes_append hslash ['\\']
  by_cases hclosed : Closed b
  · have hclose := Text.cutOutside_of_unclosed (Text.unclosed_of_no_braces hb) hclosed hlast r
    have hhidden : hiddenBehind b r = [] := if_pos hclosed
    rw [hhidden]
    refine ⟨(position.after (a ++ ['\\'])).after (inBraces b), r, rfl, .inl (by simp), ?_⟩
    rw [scan_of_shielded position hcut hone hclose, List.dropLast_concat, List.append_nil]
  · have hclose := cutOutside_of_not_closed hb hlast hclosed r
    cases hfound : Text.cutOutside Tag.closingBraces
        (Text.Quoting.outside.after (b ++ Tag.closingBraces)) r with
    | none =>
      have hhidden : hiddenBehind b r = r := by
        rw [hiddenBehind, if_neg hclosed]
        simp only [hfound]
      rw [hfound] at hclose
      rw [hhidden]
      refine ⟨position, [], by simp, .inr rfl, ?_⟩
      rw [scan_of_unclosed position hcut hone hclose, List.dropLast_concat, scan_nil]
      simp [inBraces]
    | some pair =>
      obtain ⟨front, back⟩ := pair
      have hhidden : hiddenBehind b r = front ++ Tag.closingBraces := by
        rw [hiddenBehind, if_neg hclosed]
        simp only [hfound]
      rw [hfound] at hclose
      rw [hhidden]
      refine ⟨(position.after (a ++ ['\\'])).after (inBraces (b ++ (Tag.closingBraces ++ front))),
        back, Text.append_of_cutOutside hfound, .inl (by simp [Tag.closingBraces]), ?_⟩
      rw [scan_of_shielded position hcut hone hclose, List.dropLast_concat]
      simp [inBraces]

end

/-- What is taken for text is scanned as such, if no tag begins in it. -/
theorem scan_hidden {hidden back : List Char} (hfree : ¬ Tag.braces <:+: hidden)
    (hend : (∀ c ∈ hidden.getLast?, c = '}') ∨ back = []) (position : Position) :
    scan position (hidden ++ back) =
      consText hidden (scan (position.after hidden) back) := by
  have hcut : Text.cut Tag.braces hidden = none := Text.cut_eq_none hfree
  obtain hlast | rfl := hend
  · apply scan_text_append hcut
    · intro hbrace
      exact absurd (hlast _ hbrace) (by decide)
    · intro hslash
      exact absurd (hlast _ hslash) (by decide)
  · rw [List.append_nil, scan_of_cut_none position hcut, scan_nil]

end Segment

theorem behindText_cases (run : List Char) (body : List Statement) :
    (∃ text rest, body = .content text :: rest ∧
      behindText run body = .content (String.ofList run ++ text) :: rest) ∨
      behindText run body = .content (String.ofList run) :: body := by
  rcases body with _ | ⟨_ | _ | _ | _ | _, rest⟩
  · exact .inr rfl
  · exact .inl ⟨_, rest, rfl, rfl⟩
  all_goals exact .inr rfl

theorem behindText_of_not_content {first : List Char} {body : List Statement}
    (h : ∀ s ∈ body.head?, s.isContent = false) :
    behindText first body = .content (String.ofList first) :: body := by
  cases body with
  | nil => rfl
  | cons s body =>
    cases s with
    | content text => exact absurd (h _ rfl) (by simp [Statement.isContent])
    | _ => rfl

namespace Nesting

variable {segments segments' : List Segment} {current : List Statement}

/-- A text that is read first becomes the first statement, whatever text it is. -/
theorem exists_of_run_text (halike : List.Forall₂ Segment.Alike segments segments')
    {first : List Char} (h : Nesting.run {} (.text first :: segments) = .ok ⟨current, []⟩)
    (other : List Char) :
    ∃ added, current = added ++ [.content (String.ofList first)] ∧
      Nesting.run {} (.text other :: segments') =
        .ok ⟨added ++ [.content (String.ofList other)], []⟩ := by
  have hover : Over [.content (String.ofList first)] [.content (String.ofList other)]
      ⟨[.content (String.ofList first)], []⟩ ⟨[.content (String.ofList other)], []⟩ := .outside []
  obtain ⟨m, hm, hfinal⟩ := hover.run halike h
  obtain ⟨added, rfl, rfl⟩ := hfinal.eq_of_closed
  exact ⟨added, rfl, hm⟩

/-- What is read from segments that do not begin with text does not begin with text either, and is
the same behind another text. -/
theorem run_behind_text (hfirst : ∀ segment ∈ segments.head?, segment.isText = false)
    (hapart : Segment.Apart segments) (h : Nesting.run {} segments = .ok ⟨current, []⟩)
    (first : List Char) :
    Nesting.run {} (.text first :: segments) =
        .ok ⟨current ++ [.content (String.ofList first)], []⟩ ∧
      ∀ s ∈ current.reverse.head?, s.isContent = false := by
  have hover : Over [] [.content (String.ofList first)] {}
      ⟨[.content (String.ofList first)], []⟩ := .outside []
  obtain ⟨m, hm, hfinal⟩ := hover.run (Segment.alike_refl segments) h
  obtain ⟨added, hadded, rfl⟩ := hfinal.eq_of_closed
  rw [List.append_nil] at hadded
  subst hadded
  refine ⟨hm, ?_⟩
  -- The text that is read before shows that none comes next.
  have hstart : Nesting.Gathered (fun _ => True) (fun _ => True)
      ⟨[.content (String.ofList first)], []⟩ := ⟨⟨⟨trivial, trivial⟩, trivial⟩, by simp⟩
  have hgathered := gathered_run (fun _ _ _ _ _ _ _ => trivial) hstart ?_ ?_ hapart hm
  · have happart := hgathered.current.reverse.apart
    rw [List.reverse_append] at happart
    cases hcurrent : current.reverse with
    | nil => simp
    | cons s body =>
      rw [hcurrent] at happart
      rintro t ⟨⟩
      exact happart.1 rfl
  · rintro ⟨segment, hsegment, htext⟩
    rw [hfirst segment hsegment] at htext
    cases htext
  · intro segment _
    cases segment with
    | tag position t => exact fun d _ => by cases d <;> first | trivial | exact fun _ _ => trivial
    | _ => trivial

/-- Segments behind a text are read as they are without it. -/
theorem run_consText_behind (hapart : Segment.Apart segments)
    (h : Nesting.run {} segments = .ok ⟨current, []⟩) {first : List Char} (hne : first ≠ []) :
    Nesting.run {} (Segment.consText first segments) =
      .ok ⟨(behindText first current.reverse).reverse, []⟩ := by
  obtain ⟨c, first, rfl⟩ := List.exists_cons_of_ne_nil hne
  have hbehind (hfirst : ∀ segment ∈ segments.head?, segment.isText = false)
      (hcons : Segment.consText (c :: first) segments = .text (c :: first) :: segments) :
      Nesting.run {} (Segment.consText (c :: first) segments) =
        .ok ⟨(behindText (c :: first) current.reverse).reverse, []⟩ := by
    obtain ⟨hrun, hcontent⟩ := run_behind_text hfirst hapart h (c :: first)
    rw [hcons, hrun, behindText_of_not_content hcontent]
    simp
  cases segments with
  | nil => exact hbehind (by simp) rfl
  | cons segment segments =>
    cases segment with
    | text run =>
      obtain ⟨added, rfl, hrun⟩ :=
        exists_of_run_text (Segment.alike_refl segments) h (c :: first ++ run)
      refine hrun.trans ?_
      simp [behindText, String.append_assoc]
    | tag position t => exact hbehind (by rintro segment ⟨⟩; rfl) rfl
    | broken position fault => cases h

/-- A text comes first among the statements only if one comes first among the segments. -/
theorem exists_text_of_content (hapart : Segment.Apart segments)
    (h : Nesting.run {} segments = .ok ⟨current, []⟩) {text : String} {body : List Statement}
    (hcurrent : current.reverse = .content text :: body) :
    ∃ run rest, segments = .text run :: rest ∧ text = String.ofList run := by
  have hnot (hfirst : ∀ segment ∈ segments.head?, segment.isText = false) : False := by
    obtain ⟨-, hcontent⟩ := run_behind_text hfirst hapart h []
    rw [hcurrent] at hcontent
    cases hcontent _ rfl
  cases segments with
  | nil => exact (hnot (by simp)).elim
  | cons segment segments =>
    cases segment with
    | text run =>
      obtain ⟨added, rfl, -⟩ := exists_of_run_text (Segment.alike_refl segments) h run
      rw [List.reverse_append] at hcurrent
      cases hcurrent
      exact ⟨run, segments, rfl, rfl⟩
    | tag position t => exact (hnot (by rintro segment ⟨⟩; rfl)).elim
    | broken position fault => cases h

end Nesting

namespace Program

/-- The text that a program begins with does not hold the first braces of the template where they
stand. -/
theorem not_prefix_of_ofText {s before after : List Char} {p : Program} {text : String}
    {body : List Statement} (hcut : Text.cut Tag.braces s = some (before, after))
    (h : ofText s = .ok p) (hbody : p.body = .content text :: body) :
    ¬ before ++ ['{'] <+: text.toList := by
  obtain ⟨current, hrun, rfl⟩ := ofText_eq_ok_iff.mp h
  obtain ⟨run, rest, hsource, rfl⟩ :=
    Nesting.exists_text_of_content (Segment.apart_tidy false _) hrun hbody
  rw [String.toList_ofList]
  exact Segment.not_prefix_of_tidy_scan hcut hsource

/-- A part of a template in which a tag begins does not stand, as it is, at the beginning of the
program that is read from the template. -/
theorem not_hidden_prefix {hidden back : List Char} {p : Program} {text : String}
    {body : List Statement} (hin : Tag.braces <:+: hidden) (h : ofText (hidden ++ back) = .ok p)
    (hbody : p.body = .content text :: body) : ¬ hidden <+: text.toList := by
  cases hcut : Text.cut Tag.braces (hidden ++ back) with
  | none =>
    exact absurd (hin.trans (List.prefix_append hidden back).isInfix)
      (Text.not_infix_of_cut_eq_none (by decide) hcut)
  | some pair =>
    obtain ⟨before, after⟩ := pair
    have hbefore : before ++ ['{'] <+: hidden ++ back :=
      ⟨'{' :: after, by rw [Text.append_of_cut hcut]; simp [Tag.braces]⟩
    intro hprefix
    refine not_prefix_of_ofText hcut h hbody (List.IsPrefix.trans ?_ hprefix)
    obtain hfront | hfront :=
      List.prefix_or_prefix_of_prefix hbefore (List.prefix_append hidden back)
    · exact hfront
    · exact absurd (hin.trans hfront.isInfix) (Text.not_infix_of_cut hcut)

section
variable {a b r : List Char} {p : Program} (ha : ¬ Tag.braces <:+: a)
variable (hslash : a.getLast? ≠ some '\\') (hb : ¬ Tag.closingBraces <:+: b)
variable (hlast : b.getLast? ≠ some '}')
include ha hslash hb hlast

/-- What becomes text begins the program, as it is. -/
theorem exists_content_of_escaped (hin : Tag.braces <:+: hiddenBehind b r)
    (h : ofText (a ++ '\\' :: inBraces b ++ r) = .ok p) : ∃ more body,
      p.body = .content (String.ofList (a ++ inBraces b ++ hiddenBehind b r ++ more)) :: body := by
  obtain ⟨there, back, -, hend, hscan⟩ := Segment.scan_escaped ha hslash hb hlast r .start
  have hne : a ++ inBraces b ++ hiddenBehind b r ≠ [] := by simp [inBraces, Tag.braces]
  have hsource : ∃ segments, Segment.ofSource (a ++ '\\' :: inBraces b ++ r) =
      Segment.consText (a ++ inBraces b ++ hiddenBehind b r) segments := by
    rw [Segment.ofSource, hscan]
    obtain hbrace | rfl := hend
    · have hhidden : hiddenBehind b r ≠ [] := by
        intro hnil
        rw [hnil] at hin
        exact absurd hin (by decide)
      have hc := List.getLast?_eq_some_getLast hhidden
      have hwhole : (a ++ inBraces b ++ hiddenBehind b r).getLast? = some '}' := by
        rw [List.getLast?_append, hc, hbrace _ hc]
        rfl
      exact ⟨_, Segment.tidy_consText_of_last hwhole (by decide) _⟩
    · obtain ⟨c, whole, hwhole⟩ := List.exists_cons_of_ne_nil hne
      rw [Segment.scan_nil, hwhole]
      exact ⟨[], rfl⟩
  obtain ⟨segments, hsegments⟩ := hsource
  obtain ⟨more, rest, htext⟩ := Segment.exists_consText_eq hne segments
  obtain ⟨current, hrun, rfl⟩ := ofText_eq_ok_iff.mp h
  rw [hsegments, htext] at hrun
  obtain ⟨added, rfl, -⟩ := Nesting.exists_of_run_text (Segment.alike_refl rest) hrun []
  exact ⟨more, added.reverse, by simp⟩

variable (hr : ofText r = .ok p)
include hr

theorem ofText_escaped (hfree : ¬ Tag.braces <:+: hiddenBehind b r) :
    ofText (a ++ '\\' :: inBraces b ++ r) =
      .ok (.ofBody (behindText (a ++ inBraces b) p.body)) := by
  obtain ⟨there, back, hsplit, hend, hscan⟩ := Segment.scan_escaped ha hslash hb hlast r .start
  obtain ⟨current, hrun, rfl⟩ := ofText_eq_ok_iff.mp hr
  have hne : a ++ inBraces b ≠ [] := by simp [inBraces, Tag.braces]
  have hbrace : (a ++ inBraces b).getLast? = some '}' := by simp [inBraces, Tag.closingBraces]
  have hrest : Segment.scan .start r = Segment.consText (hiddenBehind b r)
      (Segment.scan (Text.Position.start.after (hiddenBehind b r)) back) := by
    conv => lhs; rw [hsplit]
    exact Segment.scan_hidden hfree hend .start
  have hsame : List.Forall₂ Segment.Alike
      (Segment.consText (a ++ inBraces b) (Segment.scan .start r))
      (Segment.scan .start (a ++ '\\' :: inBraces b ++ r)) := by
    rw [hscan, hrest, Segment.consText_consText (a ++ inBraces b)]
    exact Segment.consText_alike (Segment.scan_alike back _ there) _
  have halike := Segment.tidy_alike hsame false
  rw [Segment.tidy_consText_of_last hbrace (by decide)] at halike
  have hbehind := Nesting.run_consText_behind (Segment.apart_tidy false _) hrun hne
  exact ofText_eq_ok_iff.mpr ⟨_, Nesting.run_alike halike hbehind, by simp⟩

/-- An escaped tag hides itself, and a program is read from what follows it as if it were not there,
if and only if no tag begins in what it turns into text besides. Its braces stand in the text, and
its backslash does not. -/
theorem ofText_escaped_iff :
    ofText (a ++ '\\' :: inBraces b ++ r) = .ok (.ofBody (behindText (a ++ inBraces b) p.body)) ↔
      ¬ Tag.braces <:+: hiddenBehind b r := by
  refine ⟨fun h hin => ?_, ofText_escaped ha hslash hb hlast hr⟩
  obtain ⟨there, back, hsplit, -⟩ := Segment.scan_escaped ha hslash hb hlast r .start
  have hread : ofText (hiddenBehind b r ++ back) = .ok p := by rwa [← hsplit]
  obtain ⟨more, body, hbody⟩ := exists_content_of_escaped ha hslash hb hlast hin h
  rw [ofBody_body, List.append_assoc] at hbody
  obtain ⟨text, rest, hp, hbehind⟩ | hbehind := behindText_cases (a ++ inBraces b) p.body
  · have htext : text.toList = hiddenBehind b r ++ more := by
      rw [hbehind, List.cons.injEq, Statement.content.injEq] at hbody
      have hlist := congrArg String.toList hbody.1
      rw [String.toList_append, String.toList_ofList, String.toList_ofList] at hlist
      exact List.append_cancel_left hlist
    exact not_hidden_prefix hin hread hp ⟨more, htext.symm⟩
  · rw [hbehind, List.cons.injEq, Statement.content.injEq, String.ofList_inj] at hbody
    have hnil := List.append_cancel_left ((List.append_nil _).trans hbody.1)
    rw [(List.append_eq_nil_iff.mp hnil.symm).1] at hin
    exact absurd hin (by decide)

end

/-- The tag behind an escaped tag with an apostrophe is not read; without the apostrophe it is. -/
theorem ofText_escaped_iff_apostrophe : ∃ p, ofText "\x7b\x7bx\x7d\x7d".toList = .ok p ∧
    hiddenBehind "it's".toList "\x7b\x7bx\x7d\x7d".toList = "\x7b\x7bx\x7d\x7d".toList ∧
    ofText "\\\x7b\x7bit's\x7d\x7d\x7b\x7bx\x7d\x7d".toList ≠
      .ok (.ofBody (behindText "\x7b\x7bit's\x7d\x7d".toList p.body)) ∧
    ofText "\\\x7b\x7bits\x7d\x7d\x7b\x7bx\x7d\x7d".toList =
      .ok (.ofBody (behindText "\x7b\x7bits\x7d\x7d".toList p.body)) := by
  have htag : Tag.read "x\x7d\x7d".toList = .ok (⟨false, .plain ['x'], false⟩, []) := by decide
  obtain ⟨p, hp⟩ : ∃ p, ofText "\x7b\x7bx\x7d\x7d".toList = .ok p := by
    refine ⟨_, ofText_eq_ok_iff.mpr ⟨[.mustache (.path (.ofText ['x'])) {} true], ?_, rfl⟩⟩
    change Nesting.run {} (Segment.ofSource ('{' :: '{' :: "x\x7d\x7d".toList)) = _
    rw [Segment.ofSource, Segment.scan_braces, Segment.scanTag_of_read htag, Segment.scan_nil]
    rfl
  have hhidden : hiddenBehind "it's".toList "\x7b\x7bx\x7d\x7d".toList =
      "\x7b\x7bx\x7d\x7d".toList := by decide
  have happly (b : String) (hb : ¬ Tag.closingBraces <:+: b.toList)
      (hlast : b.toList.getLast? ≠ some '}') :=
    ofText_escaped_iff (a := []) (by decide) (by decide) hb hlast hp
  have hopen := happly "it's" (by decide) (by decide)
  have hclosed := happly "its" (by decide) (by decide)
  refine ⟨p, hp, hhidden, fun h => hopen.mp h ?_, hclosed.mpr ?_⟩
  · rw [hhidden]
    decide
  · decide

end Program

end Stencil.Handlebars
