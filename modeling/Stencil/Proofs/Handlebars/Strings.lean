import Stencil.Proofs.Handlebars.Locality
import Stencil.Proofs.Handlebars.Signs
import Stencil.Proofs.Handlebars.Soundness

/-!
# Where strings end

Two readers follow the quoted strings of a tag. The first one looks for the
braces that close the tag, the second one cuts the inside of the tag into
tokens. Both are inside the same string after every character, so a tag is never
closed in the middle of a string, and the second reader never finds one open at
the end.
-/

namespace Stencil.Handlebars

open Text (Position Closed)

namespace Token

theorem Mode.quoting_fromGap (c : Char) :
    (fromGap c).2.quoting = Text.Quoting.outside.next c := by
  unfold fromGap
  split
  · next hblank => simp [quoting, Text.Quoting.next, Text.not_quote_of_blank hblank]
  · split
    · next token hmark =>
      have hquote : Text.isQuote c = false := by
        unfold mark? at hmark
        repeat' split at hmark
        all_goals simp_all [Text.isQuote]
      simp [quoting, Text.Quoting.next, hquote]
    · split
      · next hquote => simp [quoting, Text.Quoting.next, hquote]
      · next hquote => simp [quoting, Text.Quoting.next, hquote]

/-- After one more character both readers are in the same place. -/
theorem Mode.quoting_next {mode : Mode} (h : mode.quoting.Proper) (c : Char) :
    (mode.next c).2.quoting = mode.quoting.next c := by
  have hslash {quote : Char} (hquote : Text.isQuote quote = true) : quote ≠ '\\' := by
    rintro rfl
    exact absurd hquote (by decide)
  cases mode with
  | gap => exact quoting_fromGap c
  | word read =>
    simp only [next]
    split
    · exact quoting_fromGap c
    · next hc =>
      have hquote : Text.isQuote c = false := by simp_all [endsWord]
      simp [quoting, Text.Quoting.next, hquote]
  | quoted quote read =>
    by_cases hc : c = '\\'
    · simp [next, quoting, Text.Quoting.next, hc]
    · by_cases hquote : c = quote <;> simp [next, quoting, Text.Quoting.next, hc, hquote, hslash h]
  | backslash quote read =>
    by_cases hc : c = quote
    · simp [next, quoting, Text.Quoting.next, hc, hslash h]
    · by_cases hback : c = '\\'
      · subst hback
        simp [next, quoting, Text.Quoting.next, hc]
      · simp [next, quoting, Text.Quoting.next, hc, hback]

theorem exists_lexFrom_iff {mode : Mode} (h : mode.quoting.Proper) (s : List Char) :
    (∃ tokens, lexFrom mode s = some tokens) ↔ mode.quoting.after s = .outside := by
  induction s generalizing mode with
  | nil => cases mode <;> simp [lexFrom, Mode.finish, Mode.quoting, Text.Quoting.after]
  | cons c s ih =>
    have hnext := Mode.quoting_next h c
    rw [Text.Quoting.after_cons, ← hnext, ← ih (hnext ▸ h.next c), lexFrom]
    simp

/-- The text can be cut into tokens: no string is left open in it. -/
def Lexable (s : List Char) : Prop :=
  ∃ tokens, lex s = some tokens

/-- A text can be cut into tokens if all its strings are closed, and only then. -/
theorem lexable_iff {s : List Char} : Lexable s ↔ Closed s :=
  exists_lexFrom_iff (show Mode.gap.quoting.Proper from trivial) s

/-- Of all places where `mark` stands in `s` and the text before it can be cut into tokens, the
one behind `inside` is the first. -/
structure Ends (mark inside behind s : List Char) : Prop where
  split : s = inside ++ mark ++ behind
  lexable : Lexable inside
  first : ∀ other, other ++ mark <+: s → Lexable other → inside <+: other

theorem ends_of_cutOutside {mark s inside behind : List Char}
    (h : Text.cutOutside mark .outside s = some (inside, behind)) : Ends mark inside behind s where
  split := Text.append_of_cutOutside h
  lexable := lexable_iff.mpr (Text.outside_of_cutOutside h)
  first _ hmark hother := Text.prefix_of_cutOutside h hmark (lexable_iff.mp hother)

end Token

open Token (Lexable Ends)

/-- What is handed on of the inside of a tag to be cut into tokens: all of it, all but the blanks
at its ends, or what stands behind a sign or an `else`. -/
inductive Form.Hands : Form → List Char → Prop
  | triple (body : List Char) : Hands (.triple body) body
  | plain (body : List Char) : Hands (.plain body) body
  | trimmed (body : List Char) : Hands (.plain body) (Text.trim body)
  | behind {body sign part : List Char}
      (hsign : sign ∈ [['#'], ['>'], ['&'], ['e', 'l', 's', 'e']])
      (hbody : Text.trim body = sign ++ part) : Hands (.plain body) part

def Form.StringsClosed : Form → Prop
  | .plain body => Text.Closed body
  | .triple body => Text.Closed body
  | _ => True

theorem Form.Hands.lexable {form : Form} {part : List Char} (h : form.Hands part)
    (hclosed : form.StringsClosed) : Lexable part := by
  rw [Token.lexable_iff]
  cases h with
  | triple body => exact hclosed
  | plain body => exact hclosed
  | trimmed body => exact (Text.closed_trim body).mpr hclosed
  | @behind body sign part hsign hbody =>
    have hquote : ∀ c ∈ sign, Text.isQuote c = false := by
      simp only [List.mem_cons, List.not_mem_nil, or_false] at hsign
      rcases hsign with rfl | rfl | rfl | rfl <;> simp [Text.isQuote]
    rwa [← Text.closed_append_left hquote, ← hbody, Text.closed_trim]

/-- A tag in front of `rest` ends at the first mark outside of strings: a plain tag at closing
braces, a triple one at a single brace. -/
def Tag.EndsFirst (t : Tag) (s rest : List Char) : Prop :=
  match t.form with
  | .plain body => Ends closingBraces (body ++ tilde t.trimRight) rest s
  | .triple body => ∃ inner, s = '{' :: inner ∧
      Ends ['}'] body (tilde t.trimRight ++ closingBraces ++ rest) inner
  | _ => True

theorem Tag.not_quote_of_mem_tilde {present : Bool} :
    ∀ c ∈ tilde present, Text.isQuote c = false := by
  cases present <;> simp [tilde, Text.isQuote]

theorem Tag.endsFirst_of_read {s rest : List Char} {t : Tag} (h : read s = .ok (t, rest)) :
    t.EndsFirst (dropTilde s).2 rest := by
  unfold read at h
  split at h
  · cases h
  · next form right rest hform =>
    cases h
    cases form with
    | plain body =>
      obtain ⟨whole, hcut, hdrop⟩ := plain_of_readForm hform
      have hwhole := dropTildeEnd_append whole
      rw [hdrop] at hwhole
      rw [← hwhole] at hcut
      exact Token.ends_of_cutOutside hcut
    | triple body =>
      obtain ⟨inner, hinner, hcut⟩ := triple_of_readForm hform
      exact ⟨inner, hinner, Token.ends_of_cutOutside hcut⟩
    | comment body => trivial
    | dashed body => trivial

theorem Tag.closed_of_read {s rest : List Char} {t : Tag} (h : read s = .ok (t, rest)) :
    t.form.StringsClosed := by
  have hends := endsFirst_of_read h
  obtain ⟨left, form, right⟩ := t
  cases form with
  | plain body =>
    have hclosed := Token.lexable_iff.mp hends.lexable
    exact (Text.closed_append_right not_quote_of_mem_tilde body).mp hclosed
  | triple body =>
    obtain ⟨inner, -, hends⟩ := hends
    exact Token.lexable_iff.mp hends.lexable
  | comment body => trivial
  | dashed body => trivial

/-- Whether no tag that has been read is ever at fault like this: its strings have ended, and which
blocks are left open shows behind the last tag. -/
def Fault.isForeign : Fault → Bool
  | unterminatedString => true
  | unclosedBlock _ => true
  | _ => false

/-- If there is no result, a tag that has been read can be at fault for it. -/
def Native {α : Type} (result : Except Fault α) : Prop :=
  ∀ fault, result = .error fault → fault.isForeign = false

section
variable {α β : Type}

@[simp] theorem native_ok (a : α) : Native (.ok a) := nofun

@[simp] theorem native_error_iff {fault : Fault} :
    Native (.error fault : Except Fault α) ↔ fault.isForeign = false := by
  simp [Native]

theorem Native.map {result : Except Fault α} (h : Native result) (f : α → β) :
    Native (result.map f) := by
  cases result with
  | ok a => exact native_ok (f a)
  | error fault => exact native_error_iff.mpr (native_error_iff.mp h)

theorem Native.error {result : Except Fault α} {fault : Fault} (h : Native result)
    (hfault : result = .error fault) : Native (.error fault : Except Fault β) :=
  native_error_iff.mpr (h fault hfault)

end

namespace Call

theorem native_names (tokens : List Token) : Native (names tokens) := by
  fun_induction names tokens with
  | case1 name tokens ih => exact ih.map _
  | _ => simp [Fault.isForeign]

theorem native_resume (draft : Draft) (outer : List Draft) (tokens : List Token) :
    Native (resume draft outer tokens) := by
  fun_induction resume draft outer tokens with
  | case1 draft outer => cases draft <;> cases outer <;> simp [finish, Fault.isForeign]
  | case12 => exact (native_names _).map _
  | _ => simp_all [Fault.isForeign]

/-- What can be cut into tokens is never read as a string that is left open. -/
theorem native_parse {s : List Char} (h : Lexable s) : Native (parse s) := by
  obtain ⟨tokens, htokens⟩ := h
  rw [parse, htokens]
  exact native_resume .fresh [] tokens

end Call

theorem Opening.native_parse {s : List Char} (h : Lexable s) : Native (parse s) := by
  unfold parse
  split
  · next fault hfault => exact (Call.native_parse h).error hfault
  · split <;> simp [Fault.isForeign]

namespace Directive

theorem native_ofMustache {s : List Char} (h : Lexable s) (escaped : Bool) :
    Native (ofMustache s escaped) := by
  unfold ofMustache
  split
  · next fault hfault => exact (Call.native_parse h).error hfault
  · split
    · simp [Fault.isForeign]
    · split <;> simp [Fault.isForeign]

theorem native_ofOpening {s : List Char} (h : Lexable s) : Native (ofOpening s) := by
  unfold ofOpening
  split
  · simp [Fault.isForeign]
  · simp [Fault.isForeign]
  · exact (Opening.native_parse h).map _

theorem native_ofTag {t : Tag} (h : t.form.StringsClosed) : Native (ofTag t) := by
  obtain ⟨left, form, right⟩ := t
  cases form with
  | comment body => simp [ofTag]
  | dashed body => simp [ofTag]
  | triple body => exact native_ofMustache ((Form.Hands.triple body).lexable h) false
  | plain body =>
    have hbehind (c : Char) (part : List Char)
        (hsign : [c] ∈ [['#'], ['>'], ['&'], ['e', 'l', 's', 'e']])
        (hbody : Text.trim body = c :: part) : Lexable part :=
      (Form.Hands.behind hsign hbody).lexable h
    change Native (ofPlain (Text.trim body))
    unfold ofPlain
    split
    · simp [Fault.isForeign]
    · next part hbody => exact native_ofOpening (hbehind _ part (by simp) hbody)
    · simp
    · split <;> simp [Fault.isForeign]
    · simp [Fault.isForeign]
    · next part hbody => exact (Call.native_parse (hbehind _ part (by simp) hbody)).map _
    · next part hbody => exact native_ofMustache (hbehind _ part (by simp) hbody) false
    · split
      · simp
      · split
        · simp
        · exact native_ofMustache ((Form.Hands.trimmed body).lexable h) true

/-- A chained `else` hands on what can be cut into tokens. -/
theorem lexable_of_chain {t : Tag} {call : List Char} (h : t.form.StringsClosed)
    (hchain : ofTag t = .ok (.chain call)) : Lexable call := by
  obtain ⟨left, form, right⟩ := t
  cases form with
  | comment body => cases hchain
  | dashed body => cases hchain
  | triple body =>
    obtain ⟨head, args, hdirective, -⟩ := ofMustache_eq_ok hchain
    cases hdirective
  | plain body =>
    have hplain : ofPlain (Text.trim body) = .ok (.chain call) := hchain
    obtain ⟨c, rest, rfl, -, hbody⟩ := chained?_eq_some (chained?_of_ofPlain hplain)
    exact (Form.Hands.behind (by simp) hbody).lexable h

end Directive

namespace Nesting

theorem native_close (name : String) (current : List Statement) (blocks : List OpenBlock) :
    Native (close name current blocks) := by
  fun_induction close name current blocks <;> simp_all [Fault.isForeign]

theorem native_invert (n : Nesting) : Native n.invert := by
  unfold invert
  split
  · simp [Fault.isForeign]
  · split <;> simp [Fault.isForeign]

theorem native_step (n : Nesting) (position : Position) {d : Directive}
    (h : ∀ call, d = .chain call → Lexable call) : Native (n.step position d) := by
  cases d with
  | opening opening =>
    rw [step]
    split <;> simp [Fault.isForeign]
  | otherwise => exact n.native_invert
  | chain call =>
    rw [step]
    split
    · next fault hfault => exact n.native_invert.error hfault
    · exact (Opening.native_parse (h call rfl)).map _
  | closing name => exact native_close name n.current n.blocks
  | _ => simp [step]

theorem apply_not_foreign {n : Nesting} {position : Position} {t : Tag} {e : SyntaxError}
    (h : t.form.StringsClosed) (happly : n.apply position t = .error e) :
    e.fault.isForeign = false := by
  unfold apply at happly
  split at happly
  · next fault hfault =>
    cases happly
    exact Directive.native_ofTag h fault hfault
  · next d hd =>
    have hstep := n.native_step position fun call hcall => Directive.lexable_of_chain h (hcall ▸ hd)
    cases hresult : n.step position d with
    | ok m =>
      rw [hresult] at happly
      cases happly
    | error fault =>
      rw [hresult] at happly
      cases happly
      exact hstep fault hresult

end Nesting

theorem Tag.native_readForm (s : List Char) : Native (readForm s) := by
  unfold readForm
  repeat' split
  all_goals simp [Fault.isForeign]

theorem Tag.native_read (s : List Char) : Native (read s) := by
  unfold read
  split
  · next fault hfault => exact (native_readForm _).error hfault
  · simp

namespace Segment

/-- The tag, or the fault, was met in reading some text. -/
def Met : Segment → Prop
  | text _ => True
  | tag _ t => ∃ s rest, Tag.read s = .ok (t, rest)
  | broken _ fault => ∃ s, Tag.read s = .error fault

theorem met_marks_iff {segments : List Segment} :
    (∀ segment ∈ marks segments, segment.Met) ↔ ∀ segment ∈ segments, segment.Met := by
  constructor
  · intro h segment hsegment
    cases segment with
    | text run => trivial
    | _ => exact h _ (List.mem_filter.mpr ⟨hsegment, rfl⟩)
  · exact fun h segment hsegment => h segment (List.mem_of_mem_filter hsegment)

theorem met_consText {segments : List Segment} (h : ∀ segment ∈ segments, segment.Met)
    (run : List Char) : ∀ segment ∈ consText run segments, segment.Met := by
  rw [← met_marks_iff, marks_consText, met_marks_iff]
  exact h

theorem met_scan (position : Position) (s : List Char) :
    ∀ segment ∈ scan position s, segment.Met := by
  fun_induction scan position s with
  | case1 position s hcut => exact met_consText (by simp) s
  | case2 position s before after hcut _ _ hclose => exact met_consText (by simp) _
  | case3 position s before after hcut _ here hslash body rest hclose _ literal ih =>
    exact met_consText ih _
  | case4 position s before after hcut _ here hslash ih =>
    apply met_consText
    split
    · next fault hread => simpa [Met] using ⟨after, hread⟩
    · next t rest hread => exact List.forall_mem_cons.mpr ⟨⟨after, rest, hread⟩, ih t rest hread⟩

theorem met_tidy {segments : List Segment} (h : ∀ segment ∈ segments, segment.Met) (left : Bool) :
    ∀ segment ∈ tidy left segments, segment.Met := by
  rw [← met_marks_iff, marks_tidy, met_marks_iff]
  exact h

end Segment

theorem Nesting.run_not_foreign {n : Nesting} {segments : List Segment} {e : SyntaxError}
    (h : ∀ segment ∈ segments, segment.Met) (hrun : n.run segments = .error e) :
    e.fault.isForeign = false := by
  induction segments generalizing n with
  | nil => cases hrun
  | cons segment segments ih =>
    rw [List.forall_mem_cons] at h
    cases segment with
    | text run => exact ih h.2 hrun
    | tag position t =>
      obtain ⟨s, rest, hread⟩ := h.1
      rw [run] at hrun
      split at hrun
      · next e' happly =>
        cases hrun
        exact apply_not_foreign (Tag.closed_of_read hread) happly
      · exact ih h.2 hrun
    | broken position fault =>
      obtain ⟨s, hread⟩ := h.1
      cases hrun
      exact Tag.native_read s fault hread

theorem Program.ofText_ne_unterminatedString {source : List Char} {e : SyntaxError}
    (h : ofText source = .error e) : e.fault ≠ .unterminatedString := by
  unfold ofText at h
  split at h
  · next e' hrun =>
    cases h
    have hnative := Nesting.run_not_foreign
      (Segment.met_tidy (Segment.met_scan .start source) false) hrun
    intro hfault
    rw [hfault] at hnative
    cases hnative
  · unfold Nesting.finish at h
    split at h
    · cases h
      simp
    · cases h

/-- The two readers agree. What is handed on of a tag can be cut into tokens; a tag ends at the
first mark before which no string is left open; and no template is refused for a string that is
left open. -/
theorem Tag.strings_end_before_marks :
    (∀ s t rest, Tag.read s = .ok (t, rest) →
      (∀ part, t.form.Hands part → Lexable part) ∧ t.EndsFirst (dropTilde s).2 rest) ∧
    ∀ source e, Program.ofText source = .error e → e.fault ≠ .unterminatedString :=
  ⟨fun _ _ _ hread =>
      ⟨fun _ hpart => hpart.lexable (closed_of_read hread), endsFirst_of_read hread⟩,
    fun _ _ h => Program.ofText_ne_unterminatedString h⟩

/-- Closing braces in a string do not close a tag; a string that is never closed leaves the tag
open, and this is what is reported. -/
theorem Tag.strings_end_before_marks_quoted :
    Tag.read "#a '\x7d\x7d'~\x7d\x7d b".toList =
        .ok (⟨false, .plain "#a '\x7d\x7d'".toList, true⟩, [' ', 'b']) ∧
      Lexable "a '\x7d\x7d'".toList ∧
      Ends closingBraces "#a '\x7d\x7d'~".toList [' ', 'b'] "#a '\x7d\x7d'~\x7d\x7d b".toList ∧
      Program.ofText "\x7b\x7ba '\x7d\x7d".toList = .error ⟨.start, .unclosedTag⟩ ∧
      Fault.unclosedTag ≠ .unterminatedString := by
  have hread : Tag.read "#a '\x7d\x7d'~\x7d\x7d b".toList =
      .ok (⟨false, .plain "#a '\x7d\x7d'".toList, true⟩, [' ', 'b']) := by
    decide
  have hopen : Tag.read "a '\x7d\x7d".toList = .error .unclosedTag := by
    decide
  have herror : Program.ofText "\x7b\x7ba '\x7d\x7d".toList = .error ⟨.start, .unclosedTag⟩ := by
    change Program.ofText ('{' :: '{' :: "a '\x7d\x7d".toList) = _
    rw [Program.ofText, Segment.ofSource, Segment.scan_braces, Segment.scanTag_of_read_error hopen]
    rfl
  obtain ⟨hread', herror'⟩ := strings_end_before_marks
  obtain ⟨hparts, hends⟩ := hread' _ _ _ hread
  have hpart : Text.trim "#a '\x7d\x7d'".toList = ['#'] ++ "a '\x7d\x7d'".toList := by decide
  exact ⟨hread, hparts _ (.behind (by simp) hpart), hends, herror, herror' _ _ herror⟩

end Stencil.Handlebars
