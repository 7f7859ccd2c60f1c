import Stencil.Proofs.Text
import Stencil.Proofs.Handlebars.ReadCall

/-!
# Reading printed tags

The inside of a printed tag shows no closing brace outside its strings, so the
tag ends where it was printed to end. Its first character and the space before
the closing braces rule out every other form, and what is left behind the sign
is the printed call.
-/

namespace Stencil.Handlebars

open Text (Sealed Firm sealed_nil sealed_cons sealed_of_plain)

theorem Token.not_blank_of_word {c : Char} (h : endsWord c = false) : Text.isBlank c = false := by
  simp only [endsWord, Bool.or_eq_false_iff] at h
  exact h.1.1

theorem Token.not_quote_of_word {c : Char} (h : endsWord c = false) : Text.isQuote c = false := by
  simp only [endsWord, Bool.or_eq_false_iff] at h
  exact h.2

theorem IsWord.plain {w : List Char} (h : IsWord w) :
    ∀ c ∈ w, Text.isQuote c = false ∧ c ≠ '}' := by
  intro c hc
  obtain ⟨hend, -, hbrace⟩ := h.2 c hc
  exact ⟨Token.not_quote_of_word hend, hbrace⟩

theorem IsWord.isSealed {w : List Char} (h : IsWord w) : Sealed w :=
  sealed_of_plain h.plain

theorem IsWord.not_blank {w : List Char} (h : IsWord w) {c : Char} (hc : c ∈ w) :
    Text.isBlank c = false :=
  Token.not_blank_of_word (h.2 c hc).1

theorem IsWord.firm {w : List Char} (h : IsWord w) : Firm w where
  ne_nil := h.1
  first _ hc := h.not_blank (List.mem_of_mem_head? hc)
  last _ hc := h.not_blank (List.mem_of_mem_getLast? hc)

/-- A text that a closing tag can name: it is a single word, and the braces that end the tag do
not stand in it. -/
structure CanClose (w : List Char) : Prop where
  word : ∀ c ∈ w, Token.endsWord c = false
  braces : ¬ Tag.closingBraces <:+: w

theorem IsWord.canClose {w : List Char} (h : IsWord w) : CanClose w where
  word c hc := (h.2 c hc).1
  braces hi := (h.2 '}' (hi.subset List.mem_cons_self)).2.2 rfl

theorem CanClose.not_blank {w : List Char} (h : CanClose w) {c : Char} (hc : c ∈ w) :
    Text.isBlank c = false :=
  Token.not_blank_of_word (h.word c hc)

theorem CanClose.not_quote {w : List Char} (h : CanClose w) {c : Char} (hc : c ∈ w) :
    Text.isQuote c = false :=
  Token.not_quote_of_word (h.word c hc)

/-- Inside a string the protected text reaches the closing quote, from behind a backslash
as well. -/
private theorem shielded_protectQuotes (s : List Char) (h : s.getLast? ≠ some '\\') :
    (Text.Shielded (.inside '"') (protectQuotes s ++ ['"']) ∧
      (Text.Quoting.inside '"').after (protectQuotes s ++ ['"']) = .outside) ∧
    (s ≠ [] → Text.Shielded (.backslash '"') (protectQuotes s ++ ['"']) ∧
      (Text.Quoting.backslash '"').after (protectQuotes s ++ ['"']) = .outside) := by
  induction s with
  | nil => simp [protectQuotes, Text.Shielded, Text.Quoting.after, Text.Quoting.next]
  | cons c s ih =>
    have hs : s.getLast? ≠ some '\\' := by
      cases s <;> simp_all [List.getLast?_cons_cons]
    obtain ⟨ihq, ihb⟩ := ih hs
    simp only [Text.Quoting.after] at ihq ihb ⊢
    by_cases hq : c = '"'
    · subst hq
      simp [protectQuotes, Text.Shielded, Text.Quoting.next, ihq]
    · by_cases hb : c = '\\'
      · subst hb
        have hne : s ≠ [] := by
          rintro rfl
          simp at h
        simp [protectQuotes, Text.Shielded, Text.Quoting.next, ihb hne]
      · simp [protectQuotes, Text.Shielded, Text.Quoting.next, hq, hb, ihq]

theorem sealed_quoted {s : List Char} (h : s.getLast? ≠ some '\\') :
    Sealed ('"' :: protectQuotes s ++ ['"']) where
  shielded := ⟨by decide, ((shielded_protectQuotes s h).1).1⟩
  closed := ((shielded_protectQuotes s h).1).2

namespace Expr

mutual

/-- A printed expression hides its braces. -/
theorem sealed_print : ∀ {e : Expr}, e.All Normal → e.All Expressible → Sealed e.print
  | path p, hn, _ => by
    have hp : p.Normal := by simpa only [All, Normal] using hn
    exact hp.word.isSealed
  | call helper params hash, hn, hx => by
    simp only [All, Normal] at hn
    simp only [All] at hx
    obtain ⟨⟨hhelper, hkeys⟩, hnp, hnh⟩ := hn
    obtain ⟨-, hxp, hxh⟩ := hx
    have hargs := (hhelper.word.isSealed.append (sealed_printParams hnp hxp)).append
      (sealed_printHash hkeys hnh hxh)
    rw [print]
    exact (sealed_cons (by decide) (by decide) hargs).append
      (Text.sealed_singleton (by decide) (by decide))
  | string value, _, hx => by
    have hv : value.toList.getLast? ≠ some '\\' := by simpa only [All, Expressible] using hx
    exact sealed_quoted hv
  | number n, hn, _ => by
    have hw : IsWord n.toList ∧ isNumber n.toList = true := by simpa only [All, Normal] using hn
    exact hw.1.isSealed
  | boolean true, _, _ => IsWord.isSealed (by decide)
  | boolean false, _, _ => IsWord.isSealed (by decide)
  | undefined, _, _ => IsWord.isSealed (by decide)
  | null, _, _ => IsWord.isSealed (by decide)

theorem sealed_printParams : ∀ {params : List Expr}, AllParams Normal params →
    AllParams Expressible params → Sealed (printParams params)
  | [], _, _ => sealed_nil
  | e :: params, hn, hx => by
    simp only [AllParams] at hn hx
    rw [printParams]
    exact (sealed_cons (by decide) (by decide) (sealed_print hn.1 hx.1)).append
      (sealed_printParams hn.2 hx.2)

theorem sealed_printHash : ∀ {hash : List (String × Expr)},
    (∀ pair ∈ hash, IsWord pair.1.toList) → AllHash Normal hash → AllHash Expressible hash →
      Sealed (printHash hash)
  | [], _, _, _ => sealed_nil
  | (key, e) :: hash, hk, hn, hx => by
    simp only [AllHash] at hn hx
    have hkey := (hk _ List.mem_cons_self).isSealed
    have hrest := sealed_printHash (fun pair h => hk pair (List.mem_cons_of_mem _ h)) hn.2 hx.2
    rw [printHash]
    exact ((sealed_cons (by decide) (by decide) hkey).append
      (sealed_cons (by decide) (by decide) (sealed_print hn.1 hx.1))).append hrest

end

theorem firm_print {e : Expr} (hn : e.All Normal) : Firm e.print := by
  cases e with
  | path p =>
    have hp : p.Normal := by simpa only [All, Normal] using hn
    exact hp.word.firm
  | call helper params hash =>
    rw [print]
    exact Text.firm_of_ends (by decide) (by decide) _
  | string value =>
    rw [print]
    exact Text.firm_of_ends (by decide) (by decide) _
  | number n =>
    have hw : IsWord n.toList ∧ isNumber n.toList = true := by simpa only [All, Normal] using hn
    exact hw.1.firm
  | boolean b => cases b <;> exact IsWord.firm (by decide)
  | undefined => exact IsWord.firm (by decide)
  | null => exact IsWord.firm (by decide)

theorem last_printParams {params : List Expr} (hn : AllParams Normal params) :
    ∀ c ∈ (printParams params).getLast?, Text.isBlank c = false := by
  induction params with
  | nil => simp [printParams]
  | cons e params ih =>
    simp only [AllParams] at hn
    have hfirm := (firm_print hn.1).append (ih hn.2)
    exact hfirm.last_append [' ']

theorem last_printHash {hash : List (String × Expr)} (hn : AllHash Normal hash) :
    ∀ c ∈ (printHash hash).getLast?, Text.isBlank c = false := by
  induction hash with
  | nil => simp [printHash]
  | cons pair hash ih =>
    obtain ⟨key, e⟩ := pair
    simp only [AllHash] at hn
    have hfirm := (firm_print hn.1).append (ih hn.2)
    have hlast := hfirm.last_append (' ' :: key.toList ++ ['='])
    rw [printHash]
    simpa only [List.append_assoc, List.cons_append, List.nil_append] using hlast

end Expr

namespace Call

theorem sealed_printNames {names : List String} (h : ∀ name ∈ names, IsWord name.toList) :
    Sealed (printNames names) := by
  induction names using printNames.induct with
  | case1 => exact sealed_nil
  | case2 name => exact (h name List.mem_cons_self).isSealed
  | case3 name names hne ih =>
    rw [printNames]
    · have hrest := ih fun n hn => h n (List.mem_cons_of_mem _ hn)
      exact (h name List.mem_cons_self).isSealed.append
        (sealed_cons (by decide) (by decide) hrest)
    · exact hne

theorem sealed_printBlockParams {names : List String} (h : ∀ name ∈ names, IsWord name.toList) :
    Sealed (printBlockParams names) := by
  cases names with
  | nil => exact sealed_nil
  | cons name names =>
    exact ((sealed_of_plain (by simp [Text.isQuote])).append (sealed_printNames h)).append
      (Text.sealed_singleton (by decide) (by decide))

/-- A printed call hides its braces. -/
theorem sealed_print {c : Call} (hn : c.Normal) (hx : c.Expressible) : Sealed c.print :=
  (((Expr.sealed_print hn.head hx.head).append
    (Expr.sealed_printParams hn.args.1.1 hx.args.1)).append
    (Expr.sealed_printHash hn.args.2 hn.args.1.2 hx.args.2)).append
    (sealed_printBlockParams hn.names)

/-- A printed call has no blanks at its ends. -/
theorem firm_print {c : Call} (hn : c.Normal) : Firm c.print := by
  have hnames : ∀ d ∈ (printBlockParams c.blockParams).getLast?, Text.isBlank d = false := by
    cases c.blockParams with
    | nil => simp [printBlockParams]
    | cons name names =>
      rw [printBlockParams, List.getLast?_append]
      · simp
        decide
      · exact List.cons_ne_nil _ _
  exact (((Expr.firm_print hn.head).append (Expr.last_printParams hn.args.1.1)).append
    (Expr.last_printHash hn.args.1.2)).append hnames

end Call

namespace Tag

def ofInner (inner : List Char) : Tag :=
  ⟨false, .plain inner, false⟩

theorem read_of_readForm {c : Char} {s rest : List Char} {form : Form} {right : Bool}
    (hc : c ≠ '~') (h : readForm (c :: s) = .ok (form, right, rest)) :
    read (c :: s) = .ok (⟨false, form, right⟩, rest) := by
  have hdrop : dropTilde (c :: s) = (false, c :: s) := by
    simp [dropTilde, hc]
  rw [read, hdrop, h]

section
variable {s body rest : List Char}

theorem readForm_comment (hdashes : ¬ ['-', '-'] <+: s)
    (hcut : Text.cut closingBraces s = some (body, rest)) :
    readForm ('!' :: s) = .ok (.comment (dropTildeEnd body).1, (dropTildeEnd body).2, rest) := by
  rw [readForm, hcut]
  rintro t rfl
  exact hdashes ⟨t, rfl⟩

theorem readForm_triple {after : List Char} (hbrace : s.head? ≠ some '{')
    (hcut : Text.cutOutside ['}'] .outside s = some (body, after))
    (hclose : Text.behind? closingBraces (dropTilde after).2 = some rest) :
    readForm ('{' :: s) = .ok (.triple body, (dropTilde after).1, rest) := by
  rw [readForm, hcut]
  · simp only [hclose]
  · rintro t rfl
    exact hbrace rfl

theorem readForm_plain (hbang : s.head? ≠ some '!') (hbrace : s.head? ≠ some '{')
    (hcut : Text.cutOutside closingBraces .outside s = some (body, rest)) :
    readForm s = .ok (.plain (dropTildeEnd body).1, (dropTildeEnd body).2, rest) := by
  rw [readForm, hcut]
  · rintro t rfl
    exact hbrace rfl
  · rintro t rfl
    exact hbang rfl
  · rintro t rfl
    exact hbang rfl
  · rintro t rfl
    exact hbrace rfl

end

/-- A plain tag is read to the first braces that close it outside of strings. -/
theorem read_plain {c : Char} {s rest : List Char} (htilde : c ≠ '~') (hbrace : c ≠ '{')
    (hbang : c ≠ '!') (hlast : (c :: s).getLast? ≠ some '~')
    (hcut : Text.cutOutside closingBraces .outside (c :: s ++ closingBraces ++ rest) =
      some (c :: s, rest)) :
    read (c :: s ++ closingBraces ++ rest) = .ok (ofInner (c :: s), rest) := by
  have hform := readForm_plain (by simpa using hbang) (by simpa using hbrace) hcut
  rw [dropTildeEnd, if_neg hlast] at hform
  exact read_of_readForm htilde hform

/-- A plain tag is read to the braces that close it. -/
theorem read_inner {c : Char} {s rest : List Char} (hseal : Sealed (c :: s))
    (htilde : c ≠ '~') (hbrace : c ≠ '{') (hbang : c ≠ '!')
    (hlast : (c :: s).getLast? ≠ some '~') :
    read (c :: s ++ closingBraces ++ rest) = .ok (ofInner (c :: s), rest) := by
  apply read_plain htilde hbrace hbang hlast
  exact Text.cutOutside_of_shielded hseal.shielded hseal.closed _ rest

/-- A dashed comment ends at the dashes that were written behind it. -/
theorem cutDashes_append {s : List Char} (h : ¬ ['-', '-', '}', '}'] <:+: s)
    (h' : ¬ ['-', '-', '~', '}', '}'] <:+: s) (right : Bool) (rest : List Char) :
    cutDashes (s ++ '-' :: '-' :: tilde right ++ closingBraces ++ rest) =
      some (s, right, rest) := by
  induction s with
  | nil => cases right <;> simp [cutDashes, Text.behind?, tilde, closingBraces]
  | cons c s ih =>
    have hs := (List.suffix_cons c s).isInfix
    have hrest := ih (fun hi => h (hi.trans hs)) (fun hi => h' (hi.trans hs))
    simp only [List.cons_append, List.append_assoc] at hrest ⊢
    have hplain : Text.behind? ['-', '-', '}', '}']
        (c :: s ++ '-' :: '-' :: (tilde right ++ (closingBraces ++ rest))) = none :=
      Text.behind?_eq_none (List.cons_ne_nil c s) h (by simp [List.suffix_cons_iff])
    have htilde : Text.behind? ['-', '-', '~', '}', '}']
        (c :: s ++ '-' :: '-' :: (tilde right ++ (closingBraces ++ rest))) = none :=
      Text.behind?_eq_none (List.cons_ne_nil c s) h' (by simp [List.suffix_cons_iff])
    rw [List.cons_append] at hplain htilde
    rw [cutDashes, hplain, htilde, hrest]
    rfl

theorem read_comment {s rest : List Char} (h : ¬ ['-', '-', '}', '}'] <:+: s)
    (h' : ¬ ['-', '-', '~', '}', '}'] <:+: s) :
    read (['!', '-', '-'] ++ s ++ ['-', '-'] ++ closingBraces ++ rest) =
      .ok (⟨false, .dashed s, false⟩, rest) := by
  have hcut : cutDashes (s ++ ['-', '-'] ++ closingBraces ++ rest) = some (s, false, rest) := by
    simpa [tilde] using cutDashes_append h h' false rest
  have hform : readForm ('!' :: '-' :: '-' :: (s ++ ['-', '-'] ++ closingBraces ++ rest)) =
      .ok (.dashed s, false, rest) := by
    rw [readForm, hcut]
  exact read_of_readForm (by decide) hform

end Tag

namespace Directive

theorem ofMustache_print {c : Call} (hn : c.Normal) (hx : c.Expressible)
    (hcall : c.head.isCall = false) (hnames : c.blockParams = []) (escaped : Bool) :
    ofMustache c.print escaped = .ok (mustache c.head c.args escaped) := by
  rw [ofMustache, Call.parse_print (hn.legible hx)]
  cases hh : c.head with
  | call helper params hash =>
    rw [hh] at hcall
    cases hcall
  | _ => simp [hh, hnames]

/-- A number begins with a digit or a minus sign. -/
theorem first_of_isNumber {c : Char} {s : List Char} (h : Expr.isNumber (c :: s) = true) :
    c = '-' ∨ c.isDigit = true := by
  by_cases hminus : c = '-'
  · exact .inl hminus
  · right
    simp only [Expr.isNumber, List.cons.injEq, hminus, false_and, imp_self, implies_true] at h
    split at h
    · next whole fraction hcut =>
      have happ := Text.append_of_cut hcut
      cases whole with
      | nil => simp [Expr.isDigits] at h
      | cons d whole =>
        rw [List.cons_append, List.cons_append, List.cons.injEq] at happ
        simp only [Expr.isDigits, List.all_cons, Bool.and_eq_true] at h
        exact happ.1 ▸ h.1.2.1
    · simp only [Expr.isDigits, List.all_cons, Bool.and_eq_true] at h
      exact h.2.1

theorem isSign_of_isDigit {c : Char} (h : c.isDigit = true) : isSign c = false := by
  have hne : ∀ d : Char, d.isDigit = false → c ≠ d := by
    rintro d hd rfl
    rw [hd] at h
    cases h
  simp [isSign, hne '#' rfl, hne '/' rfl, hne '^' rfl, hne '*' rfl, hne '>' rfl, hne '&' rfl]

/-- A tag that begins with none of the signs and is no `else` is an interpolation. -/
theorem ofPlain_of_first {c : Char} {s : List Char} (hc : isSign c = false)
    (helse : c :: s ≠ ['e', 'l', 's', 'e']) (hchain : chained? (c :: s) = none) :
    ofPlain (c :: s) = ofMustache (c :: s) true := by
  simp only [isSign, Bool.or_eq_false_iff, decide_eq_false_iff_not] at hc
  obtain ⟨⟨⟨⟨⟨h₁, h₂⟩, h₃⟩, h₄⟩, h₅⟩, h₆⟩ := hc
  have hword : "else".toList = ['e', 'l', 's', 'e'] := by decide
  rw [ofPlain, hword, if_neg helse, hchain]
  all_goals simp_all

/-- What stands behind a printed head: nothing, or a blank. -/
def Breaks (s : List Char) : Prop :=
  ∀ c ∈ s.head?, Text.isBlank c = true

theorem takeWhile_word {w s : List Char} (hw : IsWord w) (hs : Breaks s) :
    (w ++ s).takeWhile (!Text.isBlank ·) = w := by
  have hword : ∀ c ∈ w, (!Text.isBlank c) = true := by
    intro c hc
    rw [hw.not_blank hc]
    rfl
  have hrest : s.takeWhile (!Text.isBlank ·) = [] := by
    cases s with
    | nil => rfl
    | cons c s => simp [hs c rfl]
  rw [List.takeWhile_append_of_pos hword, hrest, List.append_nil]

/-- Only the word `else` itself makes a tag an `else`, alone or before a call. -/
theorem ofPlain_of_word {w s : List Char} (hw : IsWord w) (hs : Breaks s)
    (helse : w ≠ ['e', 'l', 's', 'e']) (hsign : ∀ c ∈ w.head?, isSign c = false) :
    ofPlain (w ++ s) = ofMustache (w ++ s) true := by
  have hword := takeWhile_word hw hs
  have hbare : w ++ s ≠ ['e', 'l', 's', 'e'] := by
    intro h
    rw [h] at hword
    exact helse hword.symm
  have hchain : chained? (w ++ s) = none := by
    rw [chained?.eq_def]
    split
    · next c t h =>
      split
      · next hc =>
        rw [h] at hword
        refine absurd hword.symm ?_
        simpa [hc, show Text.isBlank 'e' = false by decide, show Text.isBlank 'l' = false by decide,
          show Text.isBlank 's' = false by decide] using helse
      · rfl
    · rfl
  obtain ⟨c, w, rfl⟩ := List.exists_cons_of_ne_nil hw.1
  exact ofPlain_of_first (hsign c rfl) hbare hchain

theorem ofPlain_of_letter {c : Char} {s : List Char} (hc : isSign c = false) (he : c ≠ 'e') :
    ofPlain (c :: s) = ofMustache (c :: s) true := by
  apply ofPlain_of_first hc
  · simp [he]
  · rw [chained?]
    simp [he]

/-- An escaped interpolation whose head can begin a tag is read as such. -/
theorem ofPlain_print {c : Call} (hn : c.Normal) (hbegin : c.head.CanBegin)
    (hcall : c.head.isCall = false) (hnames : c.blockParams = []) :
    ofPlain c.print = ofMustache c.print true := by
  have hparams : Breaks (Expr.printParams c.args.params ++ (Expr.printHash c.args.hash ++
      printBlockParams c.blockParams)) := by
    rw [hnames]
    cases c.args.params with
    | cons e params => simp [Breaks, Expr.printParams]; decide
    | nil =>
      cases c.args.hash with
      | cons pair hash => simp [Breaks, Expr.printParams, Expr.printHash]; decide
      | nil => simp [Breaks, Expr.printParams, Expr.printHash, printBlockParams]
  have hhead := hn.head
  rw [Call.print, List.append_assoc, List.append_assoc]
  cases hh : c.head with
  | call helper params hash =>
    rw [hh] at hcall
    cases hcall
  | path p =>
    rw [hh] at hhead hbegin
    have hp : p.Normal := by simpa only [Expr.All, Expr.Normal] using hhead
    have helse : p.spelling.toList ≠ ['e', 'l', 's', 'e'] := by
      intro h
      exact hbegin.1 (String.toList_inj.1 (h.trans (by decide)))
    exact ofPlain_of_word hp.word hparams helse hbegin.2
  | string value => exact ofPlain_of_letter (by decide) (by decide)
  | number n =>
    rw [hh] at hhead
    have hw : IsWord n.toList ∧ Expr.isNumber n.toList = true := by
      simpa only [Expr.All, Expr.Normal] using hhead
    rw [Expr.print]
    obtain ⟨d, digits, hd⟩ := List.exists_cons_of_ne_nil hw.1.1
    have hfirst := first_of_isNumber (hd ▸ hw.2)
    rw [hd]
    rcases hfirst with rfl | hdigit
    · exact ofPlain_of_letter (by decide) (by decide)
    · apply ofPlain_of_letter
      · exact isSign_of_isDigit hdigit
      · rintro rfl
        exact absurd hdigit (by decide)
  | boolean b =>
    cases b
    · exact ofPlain_of_letter (by decide) (by decide)
    · exact ofPlain_of_letter (by decide) (by decide)
  | undefined => exact ofPlain_of_letter (by decide) (by decide)
  | null => exact ofPlain_of_letter (by decide) (by decide)

/-- The call behind a sign is what remains of a trimmed tag. -/
theorem trim_inner {c : Call} (hn : c.Normal) {sign : Char} (hs : Text.isBlank sign = false) :
    Text.trim (inner [sign] c) = sign :: ' ' :: c.print :=
  ((Call.firm_print hn).cons_cons hs).trim_append_blank (by decide)

theorem ofTag_escaped {c : Call} (hn : c.Normal) (hx : c.Expressible) (hbegin : c.head.CanBegin)
    (hcall : c.head.isCall = false) (hnames : c.blockParams = []) :
    ofTag (.ofInner (inner [] c)) = .ok (mustache c.head c.args true) := by
  have htrim : Text.trim (inner [] c) = c.print := by
    rw [inner, List.nil_append, List.cons_append, Text.trim_blank_cons (by decide)]
    exact (Call.firm_print hn).trim_append_blank (by decide)
  change ofPlain (Text.trim (inner [] c)) = _
  rw [htrim, ofPlain_print hn hbegin hcall hnames, ofMustache_print hn hx hcall hnames]

theorem ofTag_raw {c : Call} (hn : c.Normal) (hx : c.Expressible) (hcall : c.head.isCall = false)
    (hnames : c.blockParams = []) :
    ofTag (.ofInner (inner ['&'] c)) = .ok (mustache c.head c.args false) := by
  change ofPlain (Text.trim (inner ['&'] c)) = _
  rw [trim_inner hn (by decide), ofPlain, ofMustache, Call.parse_blank_cons (by decide)]
  exact ofMustache_print hn hx hcall hnames false

theorem ofTag_embed {c : Call} (hn : c.Normal) (hx : c.Expressible) :
    ofTag (.ofInner (inner ['>'] c)) = .ok (embed c.head c.args) := by
  change ofPlain (Text.trim (inner ['>'] c)) = _
  rw [trim_inner hn (by decide), ofPlain, ofEmbed, Call.parse_blank_cons (by decide),
    Call.parse_print (hn.legible hx)]
  rfl

theorem ofTag_opening {helper : Path} {args : Arguments} {blockParams : List String}
    (hn : Call.Normal { head := .path helper, args, blockParams })
    (hx : Call.Expressible { head := .path helper, args, blockParams }) :
    ofTag (.ofInner (inner ['#'] { head := .path helper, args, blockParams })) =
      .ok (opening ⟨helper, args, blockParams⟩) := by
  change ofPlain (Text.trim (inner ['#'] { head := .path helper, args, blockParams })) = _
  rw [trim_inner hn (by decide), ofPlain, ofOpening, Opening.parse,
    Call.parse_blank_cons (by decide), Call.parse_print (hn.legible hx)]
  · rfl
  all_goals simp

theorem ofTag_slash (n : List Char) :
    ofTag (.ofInner ('/' :: n)) =
      .ok (closing (String.ofList (Text.trim (Text.trimEnd n)))) := by
  change ofPlain (Text.trim ('/' :: n)) = _
  rw [Text.trim_cons_of_not_blank (by decide), ofPlain]

theorem ofTag_closing {name : String} (hw : CanClose name.toList) :
    ofTag (.ofInner ('/' :: name.toList ++ [' '])) = .ok (closing name) := by
  have hend : Text.trimEnd name.toList = name.toList :=
    Text.trimEnd_of_last fun c hc => hw.not_blank (List.mem_of_mem_getLast? hc)
  have hstart : Text.trimStart name.toList = name.toList :=
    Text.trimStart_of_first fun c hc => hw.not_blank (List.mem_of_mem_head? hc)
  rw [List.cons_append, ofTag_slash, Text.trimEnd_append_blank (by decide), hend, Text.trim,
    hstart, hend, String.ofList_toList]

theorem ofTag_else : ofTag (.ofInner ['e', 'l', 's', 'e']) = .ok otherwise := by
  rfl

end Directive

namespace Tag

theorem read_else (rest : List Char) :
    read (['e', 'l', 's', 'e'] ++ closingBraces ++ rest) =
      .ok (ofInner ['e', 'l', 's', 'e'], rest) :=
  read_inner (IsWord.isSealed (by decide)) (by decide) (by decide) (by decide) (by decide)

theorem read_closing {w : List Char} (hw : CanClose w) (rest : List Char) :
    read ('/' :: w ++ [' '] ++ closingBraces ++ rest) =
      .ok (ofInner ('/' :: w ++ [' ']), rest) := by
  have hlast : ('/' :: w ++ [' ']).getLast? ≠ some '~' := by
    rw [List.getLast?_append]
    simp
  have hquote : ∀ c ∈ '/' :: w ++ [' '], Text.isQuote c = false := by
    intro c hc
    rw [List.mem_append, List.mem_cons, List.mem_singleton] at hc
    obtain (rfl | hc) | rfl := hc
    · decide
    · exact hw.not_quote hc
    · decide
  -- The slash in front of the name and the space behind it keep its braces apart from others.
  have hbraces : ¬ ['}', '}'] <:+: '/' :: w ++ [' '] ++ ['}'] := by
    rw [List.append_assoc, List.singleton_append,
      Text.infix_append_cons_iff (by decide) (by decide), ← List.nil_append ('/' :: w),
      Text.infix_append_cons_iff (by decide) (by decide)]
    rintro ((h | h) | h)
    · exact absurd h (by decide)
    · exact hw.braces h
    · exact absurd h (by decide)
  apply read_plain (by decide) (by decide) (by decide) hlast
  have hcut := Text.cutOutside_unquoted_append hquote hbraces rest
  rwa [closingBraces, List.append_assoc]

theorem read_call {c : Call} (hn : c.Normal) (hx : c.Expressible) {sign : List Char}
    (hsign : sign = [] ∨ sign = ['&'] ∨ sign = ['>'] ∨ sign = ['#']) (rest : List Char) :
    read (inner sign c ++ closingBraces ++ rest) = .ok (ofInner (inner sign c), rest) := by
  have hlast : (inner sign c).getLast? ≠ some '~' := by
    rw [inner, List.getLast?_append]
    simp [List.getLast?_cons]
  have hcall : Sealed (' ' :: c.print ++ [' ']) :=
    (sealed_cons (by decide) (by decide) (Call.sealed_print hn hx)).append
      (Text.sealed_singleton (by decide) (by decide))
  rcases hsign with rfl | rfl | rfl | rfl
  · exact read_inner hcall (by decide) (by decide) (by decide) hlast
  all_goals
    exact read_inner (sealed_cons (by decide) (by decide) hcall) (by decide) (by decide)
      (by decide) hlast

end Tag
end Stencil.Handlebars
