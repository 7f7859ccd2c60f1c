import Stencil.Proofs.Handlebars.Print

/-!
# Reading printed calls

A printed call is read back in two steps. Its spelling falls apart into the
tokens that were written, whatever token follows, and the drafts collect these
tokens into the call again. Both steps go through the expression with the rest
of the tag left open.
-/

namespace Stencil.Handlebars

namespace Expr

mutual

def tokens : Expr → List Token
  | path p => [.word p.spelling.toList]
  | call helper params hash =>
    .opening :: .word helper.spelling.toList ::
      (tokensOfParams params ++ tokensOfHash hash ++ [.closing])
  | string s => [.string s.toList]
  | number n => [.word n.toList]
  | boolean b => [.word (boolText b).toList]
  | undefined => [.word (print undefined)]
  | null => [.word (print null)]

def tokensOfParams : List Expr → List Token
  | [] => []
  | e :: params => tokens e ++ tokensOfParams params

def tokensOfHash : List (String × Expr) → List Token
  | [] => []
  | (key, e) :: hash => .word key.toList :: .equals :: (tokens e ++ tokensOfHash hash)

end

end Expr

def tokensOfBlockParams : List String → List Token
  | [] => []
  | names => .word ['a', 's'] :: .pipe :: (names.map (.word ·.toList) ++ [.pipe])

def Call.tokens (c : Call) : List Token :=
  c.head.tokens ++ Expr.tokensOfParams c.args.params ++ Expr.tokensOfHash c.args.hash ++
    tokensOfBlockParams c.blockParams

/-- A text that a word can consist of. -/
def Solid (w : List Char) : Prop :=
  w ≠ [] ∧ ∀ c ∈ w, Token.endsWord c = false

theorem solid_iff (w : List Char) :
    (!w.isEmpty && w.all fun c => !Token.endsWord c) = true ↔ Solid w := by
  simp [Solid]

instance (w : List Char) : Decidable (Solid w) :=
  decidable_of_iff _ (solid_iff w)

theorem IsWord.solid {w : List Char} (h : IsWord w) : Solid w :=
  ⟨h.1, fun c hc => (h.2 c hc).1⟩

/-- A reference that is spelled with one word, and is what this word stands for. -/
structure Path.Legible (p : Path) : Prop where
  spelled : p = Path.parse p.spelling
  solid : Solid p.spelling.toList
  reference : isLiteralWord p.spelling.toList = false

theorem Path.Normal.legible {p : Path} (h : p.Normal) : p.Legible :=
  ⟨h.spelled, h.word.solid, h.reference⟩

namespace Expr

theorem ofWord_path {p : Path} (h : p.Legible) : ofWord p.spelling.toList = .path p := by
  have hr := h.reference
  simp only [isLiteralWord, Bool.or_eq_false_iff, decide_eq_false_iff_not] at hr
  obtain ⟨⟨⟨⟨ht, hf⟩, hu⟩, hnull⟩, hnum⟩ := hr
  rw [ofWord, if_neg ht, if_neg hf, if_neg hu, if_neg hnull, hnum]
  exact congrArg Expr.path h.spelled.symm

theorem ofWord_number {n : String} (h : isNumber n.toList = true) :
    ofWord n.toList = .number n := by
  have hne : ∀ w : List Char, isNumber w = false → n.toList ≠ w := by
    rintro w hw rfl
    rw [hw] at h
    cases h
  rw [ofWord, if_neg (hne _ (by decide)), if_neg (hne _ (by decide)),
    if_neg (hne _ (by decide)), if_neg (hne _ (by decide)), if_pos h, String.ofList_toList]

theorem tokens_ofWord (w : List Char) : (ofWord w).tokens = [.word w] := by
  unfold ofWord
  split
  · next h => rw [h]; rfl
  split
  · next h => rw [h]; rfl
  split
  · next h => rw [h]; decide
  split
  · next h => rw [h]; decide
  split
  · rw [tokens, String.toList_ofList]
  · rw [tokens, Path.ofText, String.toList_ofList]

/-- The condition on one expression that it is a string or what some word stands for, and on a
call that some word stands for its helper. -/
def Worded : Expr → Prop
  | call helper _ _ => ∃ w, ofWord w = .path helper
  | string _ => True
  | e => ∃ w, ofWord w = e

/-- The condition on one expression that a tag can spell it with words that keep their class and
strings that end at their closing quote. -/
def Legible : Expr → Prop
  | path p => p.Legible
  | call helper _ hash => helper.Legible ∧ ∀ pair ∈ hash, Solid pair.1.toList
  | string s => s.toList.getLast? ≠ some '\\'
  | number n => Solid n.toList ∧ isNumber n.toList = true
  | _ => True

theorem Normal.legible {e : Expr} (hn : e.Normal) (hx : e.Expressible) : e.Legible := by
  cases e with
  | path p => exact Path.Normal.legible hn
  | call helper params hash =>
    exact ⟨Path.Normal.legible hn.1, fun pair hpair => (hn.2 pair hpair).solid⟩
  | string s => exact hx
  | number n => exact ⟨hn.1.solid, hn.2⟩
  | _ => trivial

theorem Legible.worded {e : Expr} (h : e.Legible) : e.Worded := by
  cases e with
  | path p => exact ⟨_, ofWord_path h⟩
  | call helper params hash => exact ⟨_, ofWord_path h.1⟩
  | string s => trivial
  | number n => exact ⟨_, ofWord_number h.2⟩
  | boolean b => exact ⟨(boolText b).toList, by cases b <;> rfl⟩
  | undefined => exact ⟨print undefined, rfl⟩
  | null => exact ⟨print null, rfl⟩

end Expr

namespace Token

/-- A text that a word can stand in front of without growing. -/
def StopsWord (s : List Char) : Prop :=
  ∀ c ∈ s.head?, endsWord c = true

theorem stopsWord_nil : StopsWord [] := by
  simp [StopsWord]

theorem stopsWord_cons {c : Char} {s : List Char} (h : endsWord c = true) :
    StopsWord (c :: s) := by
  simpa [StopsWord] using h

theorem lex_blank_cons {c : Char} {s : List Char} (h : Text.isBlank c = true) :
    lex (c :: s) = lex s := by
  simp [lex, lexFrom, Mode.next, Mode.fromGap, h]

theorem lex_mark_cons {c : Char} {s : List Char} {token : Token}
    (hb : Text.isBlank c = false) (h : mark? c = some token) :
    lex (c :: s) = (lex s).map (token :: ·) := by
  simp [lex, lexFrom, Mode.next, Mode.fromGap, h, hb]

theorem fromGap_word {c : Char} (h : endsWord c = false) : Mode.fromGap c = ([], .word [c]) := by
  simp only [endsWord, Bool.or_eq_false_iff, Option.isSome_eq_false_iff,
    Option.isNone_iff_eq_none] at h
  simp [Mode.fromGap, h]

theorem lexFrom_word_append {w : List Char} (hw : ∀ c ∈ w, endsWord c = false)
    (read s : List Char) :
    lexFrom (.word read) (w ++ s) = lexFrom (.word (w.reverse ++ read)) s := by
  induction w generalizing read with
  | nil => rfl
  | cons c w ih =>
    have hc : endsWord c = false := hw c List.mem_cons_self
    simp only [List.cons_append, lexFrom, Mode.next, hc, Bool.false_eq_true, if_false,
      List.nil_append, Option.map_id_fun', id]
    rw [ih fun d hd => hw d (List.mem_cons_of_mem _ hd)]
    simp

/-- The end of a word leaves the reader as if it stood in a gap. -/
theorem lexFrom_word {s : List Char} (h : StopsWord s) (read : List Char) :
    lexFrom (.word read) s = (lex s).map (.word read.reverse :: ·) := by
  cases s with
  | nil => rfl
  | cons c s =>
    have hc : endsWord c = true := h c rfl
    simp only [lex, lexFrom, Mode.next, hc, if_true, Option.map_map]
    rfl

theorem lex_word_append {w s : List Char} (hne : w ≠ []) (hw : ∀ c ∈ w, endsWord c = false)
    (hs : StopsWord s) : lex (w ++ s) = (lex s).map (.word w :: ·) := by
  cases w with
  | nil => exact absurd rfl hne
  | cons c w =>
    have hc : endsWord c = false := hw c List.mem_cons_self
    simp only [List.cons_append, lex, lexFrom, Mode.next, fromGap_word hc, List.nil_append,
      Option.map_id_fun', id]
    rw [lexFrom_word_append fun d hd => hw d (List.mem_cons_of_mem _ hd), lexFrom_word hs]
    simp [lex]

/-- A string is read to its end from either place inside it: behind a backslash, that
backslash is still part of the text unless the quote follows at once. -/
private theorem lexFrom_protected (s rest : List Char) (h : s.getLast? ≠ some '\\') :
    (∀ read, lexFrom (.quoted '"' read) (protectQuotes s ++ '"' :: rest) =
      (lex rest).map (.string (read.reverse ++ s) :: ·)) ∧
    (s ≠ [] → ∀ read, lexFrom (.backslash '"' read) (protectQuotes s ++ '"' :: rest) =
      (lex rest).map (.string (read.reverse ++ '\\' :: s) :: ·)) := by
  induction s with
  | nil => simp [protectQuotes, lexFrom, Mode.next, lex]
  | cons c s ih =>
    have hs : s.getLast? ≠ some '\\' := by
      cases s <;> simp_all [List.getLast?_cons_cons]
    obtain ⟨ihq, ihb⟩ := ih hs
    by_cases hq : c = '"'
    · subst hq
      simp [protectQuotes, lexFrom, Mode.next, ihq, Function.comp_def]
    · by_cases hb : c = '\\'
      · subst hb
        have hne : s ≠ [] := by
          rintro rfl
          simp at h
        simp [protectQuotes, lexFrom, Mode.next, ihb hne, Function.comp_def]
      · simp [protectQuotes, lexFrom, Mode.next, hq, hb, ihq, Function.comp_def]

theorem lex_string_append {s : List Char} (h : s.getLast? ≠ some '\\') (rest : List Char) :
    lex ('"' :: protectQuotes s ++ '"' :: rest) = (lex rest).map (.string s :: ·) := by
  have hstart : lex ('"' :: protectQuotes s ++ '"' :: rest) =
      lexFrom (.quoted '"' []) (protectQuotes s ++ '"' :: rest) := by
    simp [lex, lexFrom, Mode.next, Mode.fromGap, show Text.isBlank '"' = false by decide,
      show mark? '"' = none by decide, show Text.isQuote '"' = true by decide]
  rw [hstart, (lexFrom_protected s rest h).1]
  rfl

end Token

namespace Expr

open Token (lex StopsWord stopsWord_cons lex_word_append lex_blank_cons lex_mark_cons)

theorem stopsWord_printParams {s : List Char} (hs : StopsWord s) (params : List Expr) :
    StopsWord (printParams params ++ s) := by
  cases params with
  | nil => simpa [printParams] using hs
  | cons e params => exact stopsWord_cons (by decide)

theorem stopsWord_printHash {s : List Char} (hs : StopsWord s) (hash : List (String × Expr)) :
    StopsWord (printHash hash ++ s) := by
  cases hash with
  | nil => simpa [printHash] using hs
  | cons pair hash => exact stopsWord_cons (by decide)

theorem lex_solid_append {w s : List Char} (hw : Solid w) (hs : StopsWord s) :
    lex (w ++ s) = (lex s).map (.word w :: ·) :=
  lex_word_append hw.1 hw.2 hs

mutual

/-- A printed expression falls apart into its tokens. -/
theorem lex_print_append : ∀ {e : Expr}, e.All Legible →
    ∀ {s : List Char}, StopsWord s → lex (e.print ++ s) = (lex s).map (e.tokens ++ ·)
  | path p, h, s, hs => by
    have hp : p.Legible := h
    simpa [print, tokens] using lex_solid_append hp.solid hs
  | call helper params hash, h, s, hs => by
    simp only [All, Legible] at h
    obtain ⟨⟨hhelper, hkeys⟩, hp, hh⟩ := h
    have hclose : StopsWord (')' :: s) := stopsWord_cons (by decide)
    have hhash := lex_printHash_append hkeys hh hclose
    have hparams := lex_printParams_append hp (stopsWord_printHash hclose hash)
    have hword := lex_solid_append hhelper.solid
      (stopsWord_printParams (stopsWord_printHash hclose hash) params)
    simp only [print, List.cons_append, List.append_assoc, List.nil_append]
    rw [lex_mark_cons (by decide) (by decide : Token.mark? '(' = some .opening), hword, hparams,
      hhash, lex_mark_cons (by decide) (by decide : Token.mark? ')' = some .closing)]
    simp [tokens, Function.comp_def]
  | string value, h, s, _ => by
    have hv : value.toList.getLast? ≠ some '\\' := h
    simpa [print, tokens] using Token.lex_string_append hv s
  | number n, h, s, hs => by
    have hn : Solid n.toList ∧ isNumber n.toList = true := h
    simpa [print, tokens] using lex_solid_append hn.1 hs
  | boolean true, _, s, hs => lex_solid_append (by decide) hs
  | boolean false, _, s, hs => lex_solid_append (by decide) hs
  | undefined, _, s, hs => lex_solid_append (by decide) hs
  | null, _, s, hs => lex_solid_append (by decide) hs

theorem lex_printParams_append : ∀ {params : List Expr}, AllParams Legible params →
    ∀ {s : List Char}, StopsWord s →
      lex (printParams params ++ s) = (lex s).map (tokensOfParams params ++ ·)
  | [], _, s, _ => by simp [printParams, tokensOfParams]
  | e :: params, h, s, hs => by
    simp only [AllParams] at h
    have hrest := lex_printParams_append h.2 hs
    have he := lex_print_append h.1 (stopsWord_printParams hs params)
    simp only [printParams, List.cons_append, List.append_assoc]
    rw [lex_blank_cons (by decide), he, hrest]
    simp [tokensOfParams, Function.comp_def]

theorem lex_printHash_append : ∀ {hash : List (String × Expr)},
    (∀ pair ∈ hash, Solid pair.1.toList) → AllHash Legible hash →
      ∀ {s : List Char}, StopsWord s →
        lex (printHash hash ++ s) = (lex s).map (tokensOfHash hash ++ ·)
  | [], _, _, s, _ => by simp [printHash, tokensOfHash]
  | (key, e) :: hash, hk, h, s, hs => by
    simp only [AllHash] at h
    have hrest := lex_printHash_append (fun pair h => hk pair (List.mem_cons_of_mem _ h)) h.2 hs
    have he := lex_print_append h.1 (stopsWord_printHash hs hash)
    have hkey := lex_solid_append (hk _ List.mem_cons_self)
      (stopsWord_cons (c := '=') (s := e.print ++ (printHash hash ++ s)) (by decide))
    simp only [printHash, List.cons_append, List.append_assoc]
    rw [lex_blank_cons (by decide), hkey,
      lex_mark_cons (by decide) (by decide : Token.mark? '=' = some .equals), he, hrest]
    simp [tokensOfHash, Function.comp_def]

end

end Expr

def Arguments.Legible (args : Arguments) : Prop :=
  args.All Expr.Legible ∧ ∀ pair ∈ args.hash, Solid pair.1.toList

namespace Call

structure Normal (c : Call) : Prop where
  head : c.head.All Expr.Normal
  args : c.args.Normal
  names : ∀ name ∈ c.blockParams, IsWord name.toList

structure Expressible (c : Call) : Prop where
  head : c.head.All Expr.Expressible
  args : c.args.All Expr.Expressible

structure Legible (c : Call) : Prop where
  head : c.head.All Expr.Legible
  args : c.args.Legible
  names : ∀ name ∈ c.blockParams, Solid name.toList

theorem Normal.legible {c : Call} (hn : c.Normal) (hx : c.Expressible) : c.Legible where
  head := hn.head.combine (fun _ => Expr.Normal.legible) hx.head
  args := ⟨hn.args.1.combine (fun _ => Expr.Normal.legible) hx.args,
    fun pair hpair => (hn.args.2 pair hpair).solid⟩
  names := fun name hname => (hn.names name hname).solid

open Token (lex StopsWord stopsWord_cons stopsWord_nil lex_blank_cons lex_mark_cons)

theorem lex_printNames_append : ∀ {names : List String}, (∀ name ∈ names, Solid name.toList) →
    ∀ {s : List Char}, StopsWord s →
      lex (printNames names ++ s) = (lex s).map (names.map (Token.word ·.toList) ++ ·)
  | [], _, s, _ => by simp [printNames]
  | [name], h, s, hs => by
    simpa [printNames] using Expr.lex_solid_append (h name List.mem_cons_self) hs
  | name :: next :: names, h, s, hs => by
    have hrest := lex_printNames_append (fun n hn => h n (List.mem_cons_of_mem _ hn)) hs
    have hname := Expr.lex_solid_append (h name List.mem_cons_self)
      (stopsWord_cons (c := ' ') (s := printNames (next :: names) ++ s) (by decide))
    simp only [printNames, List.append_assoc, List.cons_append]
    rw [hname, lex_blank_cons (by decide), hrest]
    simp [Function.comp_def]

theorem stopsWord_printBlockParams (names : List String) : StopsWord (printBlockParams names) := by
  cases names with
  | nil => exact stopsWord_nil
  | cons name names => exact stopsWord_cons (by decide)

theorem lex_printBlockParams {names : List String} (h : ∀ name ∈ names, Solid name.toList) :
    lex (printBlockParams names) = some (tokensOfBlockParams names) := by
  cases names with
  | nil => rfl
  | cons name names =>
    have hbar : StopsWord ['|'] := stopsWord_cons (by decide)
    have has : lex (['a', 's'] ++ ' ' :: '|' :: (printNames (name :: names) ++ ['|'])) =
        (lex (' ' :: '|' :: (printNames (name :: names) ++ ['|']))).map (.word ['a', 's'] :: ·) :=
      Expr.lex_solid_append (by decide) (stopsWord_cons (by decide))
    simp only [printBlockParams, List.cons_append, List.nil_append] at has ⊢
    rw [lex_blank_cons (by decide), has, lex_blank_cons (by decide),
      lex_mark_cons (by decide) (by decide : Token.mark? '|' = some .pipe),
      lex_printNames_append h hbar]
    rfl

/-- A printed call falls apart into its tokens. -/
theorem lex_print {c : Call} (h : c.Legible) : lex c.print = some c.tokens := by
  have hnames := stopsWord_printBlockParams c.blockParams
  have hhash := Expr.stopsWord_printHash hnames c.args.hash
  have hparams := Expr.stopsWord_printParams hhash c.args.params
  rw [print, List.append_assoc, List.append_assoc, Expr.lex_print_append h.head hparams,
    Expr.lex_printParams_append h.args.1.1 hhash,
    Expr.lex_printHash_append h.args.2 h.args.1.2 hnames, lex_printBlockParams h.names]
  simp [tokens]

/-- Tokens behind an expression that leave it as it is: neither an equals sign, which would
make it a key, nor a bar. -/
def Follows (rest : List Token) : Prop :=
  rest.head? ≠ some .equals ∧ rest.head? ≠ some .pipe

theorem follows_tokens {rest : List Token} (e : Expr) : Follows (e.tokens ++ rest) := by
  cases e <;> simp [Follows, Expr.tokens]

theorem follows_tokensOfParams {rest : List Token} (h : Follows rest) (params : List Expr) :
    Follows (Expr.tokensOfParams params ++ rest) := by
  cases params with
  | nil => exact h
  | cons e params =>
    rw [Expr.tokensOfParams, List.append_assoc]
    exact follows_tokens e

theorem follows_tokensOfHash {rest : List Token} (h : Follows rest) (hash : List (String × Expr)) :
    Follows (Expr.tokensOfHash hash ++ rest) := by
  cases hash with
  | nil => exact h
  | cons pair hash => simp [Follows, Expr.tokensOfHash]

theorem resume_word {draft : Draft} {outer : List Draft} {w : List Char} {rest : List Token}
    (hd : draft.refuses = false) (hf : Follows rest) :
    resume draft outer (.word w :: rest) = resume (draft.give (.ofWord w)) outer rest := by
  obtain ⟨he, hp⟩ := hf
  rw [resume, hd]
  · rfl
  · rintro head args tokens rfl rfl
    exact he rfl
  · rintro head args tokens rfl rfl rfl rfl
    exact hp rfl

theorem resume_leaf {e : Expr} (he : ∃ w, Expr.ofWord w = e) {draft : Draft} (outer : List Draft)
    {rest : List Token} (hd : draft.refuses = false) (hf : Follows rest) :
    resume draft outer (e.tokens ++ rest) = resume (draft.give e) outer rest := by
  obtain ⟨w, rfl⟩ := he
  rw [Expr.tokens_ofWord, List.singleton_append, resume_word hd hf]

mutual

/-- The tokens of an expression put it where the draft wants the next one. -/
theorem resume_tokens : ∀ {e : Expr}, e.All Expr.Worded → ∀ {draft : Draft} {outer : List Draft}
    {rest : List Token}, draft.refuses = false → Follows rest →
      resume draft outer (e.tokens ++ rest) = resume (draft.give e) outer rest
  | .call helper params hash, hw, draft, outer, rest, hd, hf => by
    simp only [Expr.All, Expr.Worded] at hw
    obtain ⟨hhelper, hparams, hhash⟩ := hw
    have hclose : Follows (.closing :: rest) := by simp [Follows]
    have hafter := follows_tokensOfHash hclose hash
    have hfresh : Draft.fresh.refuses = false := rfl
    have hhead := resume_leaf hhelper (draft :: outer) hfresh
      (follows_tokensOfParams hafter params)
    simp only [Expr.tokens, List.cons_append, List.nil_append, List.append_assoc] at hhead ⊢
    rw [resume, hd, if_neg Bool.false_ne_true, hhead, Draft.give,
      resume_tokensOfParams hparams hafter, resume_tokensOfHash hhash hclose, resume]
    simp
  | .string value, _, draft, outer, rest, hd, _ => by
    rw [Expr.tokens, List.singleton_append, resume, hd, if_neg Bool.false_ne_true,
      String.ofList_toList]
  | .path p, hw, _, _, _, hd, hf => by
    rw [Expr.All] at hw
    exact resume_leaf hw _ hd hf
  | .number n, hw, _, _, _, hd, hf => by
    rw [Expr.All] at hw
    exact resume_leaf hw _ hd hf
  | .boolean b, hw, _, _, _, hd, hf => by
    rw [Expr.All] at hw
    exact resume_leaf hw _ hd hf
  | .undefined, hw, _, _, _, hd, hf => by
    rw [Expr.All] at hw
    exact resume_leaf hw _ hd hf
  | .null, hw, _, _, _, hd, hf => by
    rw [Expr.All] at hw
    exact resume_leaf hw _ hd hf

theorem resume_tokensOfParams : ∀ {params : List Expr}, Expr.AllParams Expr.Worded params →
    ∀ {head : Expr} {before : List Expr} {outer : List Draft} {rest : List Token}, Follows rest →
      resume (.ready head ⟨before, []⟩) outer (Expr.tokensOfParams params ++ rest) =
        resume (.ready head ⟨before ++ params, []⟩) outer rest
  | [], _, head, before, outer, rest, _ => by simp [Expr.tokensOfParams]
  | e :: params, hw, head, before, outer, rest, hf => by
    simp only [Expr.AllParams] at hw
    rw [Expr.tokensOfParams, List.append_assoc,
      resume_tokens hw.1 rfl (follows_tokensOfParams hf params), Draft.give,
      resume_tokensOfParams hw.2 hf, List.append_assoc, List.singleton_append]

theorem resume_tokensOfHash : ∀ {hash : List (String × Expr)}, Expr.AllHash Expr.Worded hash →
    ∀ {head : Expr} {params : List Expr} {before : List (String × Expr)} {outer : List Draft}
      {rest : List Token}, Follows rest →
        resume (.ready head ⟨params, before⟩) outer (Expr.tokensOfHash hash ++ rest) =
          resume (.ready head ⟨params, before ++ hash⟩) outer rest
  | [], _, head, params, before, outer, rest, _ => by simp [Expr.tokensOfHash]
  | (key, e) :: hash, hw, head, params, before, outer, rest, hf => by
    simp only [Expr.AllHash] at hw
    rw [Expr.tokensOfHash, List.cons_append, List.cons_append, List.append_assoc, resume,
      resume_tokens hw.1 rfl (follows_tokensOfHash hf hash), Draft.give,
      resume_tokensOfHash hw.2 hf, List.append_assoc, List.singleton_append, String.ofList_toList]

end

theorem names_map_word (blockParams : List String) :
    names (blockParams.map (Token.word ·.toList) ++ [.pipe]) = .ok blockParams := by
  induction blockParams with
  | nil => rfl
  | cons name blockParams ih =>
    rw [List.map_cons, List.cons_append, names, ih, String.ofList_toList]
    rfl

theorem follows_tokensOfBlockParams (blockParams : List String) :
    Follows (tokensOfBlockParams blockParams) := by
  cases blockParams <;> simp [Follows, tokensOfBlockParams]

/-- The names between bars behind `as` end the call, even if there are none. -/
theorem resume_names (head : Expr) (args : Arguments) (blockParams : List String) :
    resume (.ready head args) []
        (.word ['a', 's'] :: .pipe :: (blockParams.map (.word ·.toList) ++ [.pipe])) =
      .ok { head, args, blockParams } := by
  rw [resume, names_map_word]
  rfl

theorem resume_tokensOfBlockParams (head : Expr) (args : Arguments) (blockParams : List String) :
    resume (.ready head args) [] (tokensOfBlockParams blockParams) =
      .ok { head, args, blockParams } := by
  cases blockParams with
  | nil => rfl
  | cons name blockParams => exact resume_names head args (name :: blockParams)

/-- A call whose expressions are strings, or what words stand for, or calls of such. -/
structure Worded (c : Call) : Prop where
  head : c.head.All Expr.Worded
  args : c.args.All Expr.Worded

theorem Legible.worded {c : Call} (h : c.Legible) : c.Worded where
  head := h.head.mono fun _ => Expr.Legible.worded
  args := h.args.1.mono fun _ => Expr.Legible.worded

/-- The tokens of a head and its arguments leave them as the draft of the call. -/
theorem ofTokens_append {head : Expr} {args : Arguments} (hhead : head.All Expr.Worded)
    (hargs : args.All Expr.Worded) {rest : List Token} (hrest : Follows rest) :
    ofTokens (head.tokens ++ Expr.tokensOfParams args.params ++ Expr.tokensOfHash args.hash ++
      rest) = resume (.ready head args) [] rest := by
  have hhash := follows_tokensOfHash hrest args.hash
  have hparams := follows_tokensOfParams hhash args.params
  have hfresh : Draft.fresh.refuses = false := rfl
  rw [ofTokens, List.append_assoc, List.append_assoc, resume_tokens hhead hfresh hparams,
    Draft.give, resume_tokensOfParams hargs.1 hhash, resume_tokensOfHash hargs.2 hrest]
  rfl

theorem ofTokens_tokens {c : Call} (h : c.Worded) : ofTokens c.tokens = .ok c := by
  rw [tokens, ofTokens_append h.head h.args (follows_tokensOfBlockParams c.blockParams),
    resume_tokensOfBlockParams]

/-- A printed call is read back. -/
theorem parse_print {c : Call} (h : c.Legible) : parse c.print = .ok c := by
  rw [parse, lex_print h]
  exact ofTokens_tokens h.worded

theorem parse_blank_cons {c : Char} {s : List Char} (h : Text.isBlank c = true) :
    parse (c :: s) = parse s := by
  rw [parse, lex_blank_cons h, parse]

end Call
end Stencil.Handlebars
