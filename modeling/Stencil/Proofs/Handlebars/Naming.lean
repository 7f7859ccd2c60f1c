import Stencil.Proofs.Handlebars.Spelling

/-!
# The names of blocks

The name of a block is a word of the tag that opens it. That tag ends at the
first closing braces outside of its strings, and words stand outside of strings.
So the closing tag of the block can name it: the braces that end this tag do not
stand in the name either.
-/

namespace Stencil.Handlebars

open Text (Unclosed)

namespace Token

/-- Before the rest of a text without closing braces, the reader is in the middle of something
that holds none either. -/
def Mode.Leaves (s : List Char) : Mode → Prop
  | gap => Unclosed .outside s
  | word read => (∀ c ∈ read, endsWord c = false) ∧ Unclosed .outside (read.reverse ++ s)
  | quoted quote _ => quote ≠ '\\' ∧ Unclosed (.inside quote) s
  | backslash quote _ => quote ≠ '\\' ∧ Unclosed (.backslash quote) s

theorem Mode.canClose_reverse {read s : List Char} (hread : ∀ c ∈ read, endsWord c = false)
    (h : Unclosed .outside (read.reverse ++ s)) : CanClose read.reverse where
  word c hc := hread c (List.mem_reverse.mp hc)
  braces := (Text.unclosed_append h).1.no_braces fun c hc =>
    not_quote_of_word (hread c (List.mem_reverse.mp hc))

/-- Every word among the tokens can be named in a closing tag. -/
def CanCloseAll (tokens : List Token) : Prop :=
  ∀ w, .word w ∈ tokens → CanClose w

theorem canCloseAll_nil : CanCloseAll [] := by
  intro w hw
  cases hw

theorem Mode.leaves_fromGap {c : Char} {s : List Char} (h : Unclosed .outside (c :: s)) :
    CanCloseAll (fromGap c).1 ∧ (fromGap c).2.Leaves s := by
  have houtside (hc : Text.isQuote c = false) : Unclosed .outside s := by
    simpa [Text.Quoting.next, hc] using h.2
  unfold fromGap
  split
  · next hblank =>
    exact ⟨canCloseAll_nil, houtside (Text.not_quote_of_blank hblank)⟩
  · next hblank =>
    split
    · next token hmark =>
      unfold mark? at hmark
      refine ⟨?_, houtside ?_⟩
      · intro w hw
        cases List.mem_singleton.mp hw
        grind
      · repeat' split at hmark
        all_goals simp_all [Text.isQuote]
    · next hmark =>
      split
      · next hquote =>
        refine ⟨canCloseAll_nil, ?_, by simpa [Text.Quoting.next, hquote] using h.2⟩
        rintro rfl
        exact absurd hquote (by decide)
      · next hquote =>
        refine ⟨canCloseAll_nil, ?_, h⟩
        simp_all [endsWord]

theorem Mode.leaves_next {mode : Mode} {c : Char} {s : List Char} (h : mode.Leaves (c :: s)) :
    CanCloseAll (mode.next c).1 ∧ (mode.next c).2.Leaves s := by
  cases mode with
  | gap => exact leaves_fromGap h
  | word read =>
    obtain ⟨hread, hunclosed⟩ := h
    simp only [next]
    split
    · obtain ⟨htokens, hmode⟩ := leaves_fromGap (hunclosed.behind fun d hd =>
        not_quote_of_word (hread d (List.mem_reverse.mp hd)))
      refine ⟨?_, hmode⟩
      intro w hw
      obtain hw | hw := List.mem_cons.mp hw
      · cases hw
        exact canClose_reverse hread hunclosed
      · exact htokens w hw
    · next hc =>
      refine ⟨canCloseAll_nil, List.forall_mem_cons.mpr ⟨by simpa using hc, hread⟩, ?_⟩
      simpa using hunclosed
  | quoted quote read =>
    obtain ⟨hquote, -, hrest⟩ := h
    simp only [next]
    split
    · next hc =>
      refine ⟨canCloseAll_nil, hquote, ?_⟩
      simpa [Text.Quoting.next, hc] using hrest
    · next hslash =>
      split
      · next hc =>
        subst hc
        have hstring : CanCloseAll [.string read.reverse] := by simp [CanCloseAll]
        refine ⟨hstring, ?_⟩
        simpa [Leaves, Text.Quoting.next, hslash] using hrest
      · next hc =>
        refine ⟨canCloseAll_nil, hquote, ?_⟩
        simpa [Text.Quoting.next, hslash, hc] using hrest
  | backslash quote read =>
    obtain ⟨hquote, -, hrest⟩ := h
    simp only [next]
    split
    · next hc =>
      subst hc
      refine ⟨canCloseAll_nil, hquote, ?_⟩
      simpa [Text.Quoting.next, hquote] using hrest
    · split
      · next hc =>
        refine ⟨canCloseAll_nil, hquote, ?_⟩
        simpa [Text.Quoting.next, hc] using hrest
      · next hc =>
        refine ⟨canCloseAll_nil, hquote, ?_⟩
        simpa [Text.Quoting.next, hc] using hrest

theorem canCloseAll_lexFrom {mode : Mode} {s : List Char} {tokens : List Token}
    (h : mode.Leaves s) (hlex : lexFrom mode s = some tokens) : CanCloseAll tokens := by
  induction s generalizing mode tokens with
  | nil =>
    cases mode with
    | gap =>
      cases hlex
      exact canCloseAll_nil
    | word read =>
      cases hlex
      intro w hw
      cases List.mem_singleton.mp hw
      exact Mode.canClose_reverse h.1 h.2
    | quoted quote read => cases hlex
    | backslash quote read => cases hlex
  | cons c s ih =>
    rw [lexFrom] at hlex
    obtain ⟨more, hmore, rfl⟩ := Option.map_eq_some_iff.mp hlex
    obtain ⟨hfirst, hmode⟩ := Mode.leaves_next h
    intro w hw
    exact (List.mem_append.mp hw).elim (hfirst w) (ih hmode hmore w)

end Token

def Expr.Nameable : Expr → Prop
  | .path p => CanClose p.spelling.toList
  | .call helper _ _ => CanClose helper.spelling.toList
  | _ => True

theorem Expr.nameable_ofWord {w : List Char} (h : CanClose w) : (Expr.ofWord w).All Nameable := by
  unfold ofWord
  repeat' split
  all_goals simp only [All, Nameable]
  rwa [Path.ofText, String.toList_ofList]

/-- The closing tag of a block can name it. -/
theorem Opening.canClose_parse {s : List Char} {opening : Opening}
    (h : parse s = .ok opening) (hs : Unclosed .outside s) :
    CanClose opening.helper.spelling.toList := by
  have hword : ∀ tokens ∈ Token.lex s, ∀ w, .word w ∈ tokens → (Expr.ofWord w).All Expr.Nameable :=
    fun tokens hlex w hw => Expr.nameable_ofWord
      (Token.canCloseAll_lexFrom (show Token.Mode.gap.Leaves s from hs) hlex w hw)
  have hhead := (Call.all_parse (fun _ => trivial) (fun _ _ _ h => h) hword (parse_eq_ok h)).1
  rwa [Expr.All] at hhead

end Stencil.Handlebars
