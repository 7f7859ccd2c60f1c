import Stencil.Proofs.Placeholder
import Stencil.Proofs.Handlebars.Print
import Stencil.Handlebars.Directive

/-!
# Sound expressions

A sound expression has words and references that are names and strings without
the placeholder. So is its spelling. Whatever is read from a text without the
placeholder is sound: words, tokens, calls with their arguments, and what the
tags of a template say.
-/

namespace Stencil.Handlebars

open Text (Position)

/-- A reference with a spelling and parts that are names. -/
structure Path.Sound (p : Path) : Prop where
  spelling : Named p.spelling
  parts : ∀ part ∈ p.parts, Named part

def Expr.Sound : Expr → Prop
  | .path p => p.Sound
  | .call helper _ hash => helper.Sound ∧ ∀ pair ∈ hash, Named pair.1
  | .string s => Resolved s.toList
  | .number n => Named n
  | _ => True

def Arguments.Sound (args : Arguments) : Prop :=
  args.All Expr.Sound ∧ ∀ pair ∈ args.hash, Named pair.1

def Statement.Sound : Statement → Prop
  | .content text => Resolved text.toList
  | .comment text => Resolved text.toList
  | .mustache head args _ => head.All Expr.Sound ∧ args.Sound
  | .block helper args program inverse =>
    helper.Sound ∧ args.Sound ∧ (∀ name ∈ program.blockParams, Named name) ∧
      Apart program.body ∧ ∀ other ∈ inverse, Apart other.body
  | .embed name args => name.All Expr.Sound ∧ args.Sound

/-- A program with texts that hold no placeholder and words that are not empty. -/
def Program.Sound (p : Program) : Prop :=
  Apart p.body ∧ AllBody Statement.Sound p.body

namespace Expr

theorem named_boolText (b : Bool) : Named (boolText b) := by
  cases b
  · exact ⟨by simp [boolText], by simp [boolText, Resolved.cons_iff]⟩
  · exact ⟨by simp [boolText], by simp [boolText, Resolved.cons_iff]⟩

mutual

/-- The spelling of a sound expression is a name. -/
theorem named_asWritten (e : Expr) (h : e.All Sound) : Named e.asWritten := by
  cases e with
  | path p =>
    simp only [All, Sound] at h
    rw [asWritten]
    exact h.spelling
  | call helper params hash =>
    simp only [All, Sound] at h
    obtain ⟨⟨hhelper, hkeys⟩, hparams, hhash⟩ := h
    have hinner := resolved_append_hash hash hhash hkeys _
      (resolved_append_params params hparams _ hhelper.spelling.resolved)
    have hlist : (call helper params hash).asWritten.toList =
        '(' :: (helper.spelling.toList ++ (paramsAsWritten params).toList ++
          (hashAsWritten hash).toList ++ [')']) := by
      simp [asWritten]
    refine ⟨by simp [asWritten], ?_⟩
    rw [hlist, Resolved.cons_iff (by decide), Resolved.concat_iff (by decide)]
    exact hinner
  | string s =>
    simp only [All, Sound] at h
    rw [asWritten]
    refine ⟨by simp, ?_⟩
    simpa [Resolved.cons_iff, Resolved.concat_iff] using h
  | number n =>
    simp only [All, Sound] at h
    rw [asWritten]
    exact h
  | boolean b =>
    rw [asWritten]
    exact named_boolText b
  | undefined =>
    rw [asWritten]
    exact ⟨by simp, by simp [Resolved.cons_iff]⟩
  | null =>
    rw [asWritten]
    exact ⟨by simp, by simp [Resolved.cons_iff]⟩

/-- Positional arguments behind another text. -/
theorem resolved_append_params (params : List Expr) (h : AllParams Sound params)
    (before : List Char) (hbefore : Resolved before) :
    Resolved (before ++ (paramsAsWritten params).toList) := by
  cases params with
  | nil => simpa [paramsAsWritten] using hbefore
  | cons e params =>
    have hrest := resolved_append_params params h.2 _ (named_asWritten e h.1).resolved
    have hlist : before ++ (paramsAsWritten (e :: params)).toList =
        before ++ ' ' :: (e.asWritten.toList ++ (paramsAsWritten params).toList) := by
      simp [paramsAsWritten]
    rw [hlist, Resolved.append_cons_iff (by decide)]
    exact ⟨hbefore, hrest⟩

/-- Named arguments behind another text. -/
theorem resolved_append_hash (hash : List (String × Expr)) (h : AllHash Sound hash)
    (hkeys : ∀ pair ∈ hash, Named pair.1) (before : List Char) (hbefore : Resolved before) :
    Resolved (before ++ (hashAsWritten hash).toList) := by
  cases hash with
  | nil => simpa [hashAsWritten] using hbefore
  | cons pair hash =>
    obtain ⟨key, e⟩ := pair
    rw [List.forall_mem_cons] at hkeys
    have hrest := resolved_append_hash hash h.2 hkeys.2 _ (named_asWritten e h.1).resolved
    have hlist : before ++ (hashAsWritten ((key, e) :: hash)).toList =
        before ++ ' ' :: (key.toList ++ '=' ::
          (e.asWritten.toList ++ (hashAsWritten hash).toList)) := by
      simp [hashAsWritten]
    rw [hlist, Resolved.append_cons_iff (by decide), Resolved.append_cons_iff (by decide)]
    exact ⟨hbefore, hkeys.1.resolved, hrest⟩

end

end Expr

/-- The members of a reference stand in its spelling. -/
theorem Path.infix_of_mem_parts {w : List Char} {part : String} (h : part ∈ (ofText w).parts) :
    part.toList <:+: w ∧ part ≠ "" := by
  have hmem := (List.dropWhile_sublist _).subset h
  obtain ⟨segment, hsegment, hname⟩ := List.mem_flatMap.mp hmem
  obtain ⟨field, hfield, rfl⟩ := List.mem_map.mp hname
  obtain ⟨hin, hnil⟩ := List.mem_filter.mp hfield
  have hsign : withoutSign w <:+: w := by
    unfold withoutSign
    split
    · exact (List.suffix_cons _ _).isInfix
    · exact List.infix_rfl
  have hinfix : field <:+: w :=
    ((Text.infix_of_mem_fields hin).trans (Text.infix_of_mem_fields hsegment)).trans hsign
  exact ⟨by simpa using hinfix, by simpa using hnil⟩

theorem Path.sound_ofText {w : List Char} (hne : w ≠ []) (h : Resolved w) :
    (Path.ofText w).Sound where
  spelling := named_ofList hne h
  parts := fun _ hpart =>
    ⟨(infix_of_mem_parts hpart).2, h.of_infix (infix_of_mem_parts hpart).1⟩

theorem Expr.sound_ofWord {w : List Char} (hne : w ≠ []) (h : Resolved w) :
    (Expr.ofWord w).All Expr.Sound := by
  unfold Expr.ofWord
  split
  · simp only [All, Sound]
  split
  · simp only [All, Sound]
  split
  · simp only [All, Sound]
  split
  · simp only [All, Sound]
  split
  · simp only [All, Sound]
    exact named_ofList hne h
  · simp only [All, Sound]
    exact Path.sound_ofText hne h

namespace Token

def Sound : Token → Prop
  | word w => w ≠ [] ∧ Resolved w
  | string value => Resolved value
  | _ => True

namespace Mode

/-- What the reader has taken up, followed by what is left. -/
def pending : Mode → List Char → List Char
  | gap, s => s
  | word read, s => read.reverse ++ s
  | quoted _ read, s => read.reverse ++ s
  | backslash _ read, s => read.reverse ++ '\\' :: s

/-- A word has been begun, and a quote is not a question mark. -/
def Proper : Mode → Prop
  | gap => True
  | word read => read ≠ []
  | quoted quote _ => quote ≠ '?'
  | backslash quote _ => quote ≠ '?'

/-- The tokens of one more character, and what the reader stands before. -/
structure Step (tokens : List Token) (mode : Mode) (s : List Char) : Prop where
  sound : ∀ token ∈ tokens, token.Sound
  proper : mode.Proper
  resolved : Resolved (mode.pending s)

theorem step_fromGap {c : Char} {s : List Char} (h : Resolved (c :: s)) :
    Step (fromGap c).1 (fromGap c).2 s := by
  have hs : Resolved s := h.of_infix (List.suffix_cons c s).isInfix
  unfold fromGap
  split
  · exact ⟨by simp, trivial, hs⟩
  · split
    · next token hmark =>
      have htoken : token.Sound := by
        unfold mark? at hmark
        repeat' split at hmark
        all_goals cases hmark
        all_goals trivial
      exact ⟨by simpa using htoken, trivial, hs⟩
    · split
      · next hquote =>
        refine ⟨by simp, ?_, hs⟩
        rintro rfl
        revert hquote
        decide
      · exact ⟨by simp, by simp [Proper], h⟩

theorem step_next {mode : Mode} {c : Char} {s : List Char} (hmode : mode.Proper)
    (h : Resolved (mode.pending (c :: s))) : Step (mode.next c).1 (mode.next c).2 s := by
  cases mode with
  | gap => exact step_fromGap h
  | word read =>
    simp only [pending] at h
    simp only [next]
    split
    · have hgap := step_fromGap (h.of_infix (List.suffix_append read.reverse (c :: s)).isInfix)
      have hword : (Token.word read.reverse).Sound :=
        ⟨by simpa [Proper] using hmode, h.of_infix (List.prefix_append _ _).isInfix⟩
      exact ⟨List.forall_mem_cons.mpr ⟨hword, hgap.sound⟩, hgap.proper, hgap.resolved⟩
    · exact ⟨by simp, by simp [Proper], by simpa [pending] using h⟩
  | quoted quote read =>
    simp only [pending] at h
    simp only [next]
    split
    · next hc =>
      rw [hc] at h
      exact ⟨by simp, hmode, h⟩
    · split
      · have hstring : (Token.string read.reverse).Sound :=
          h.of_infix (List.prefix_append _ _).isInfix
        refine ⟨by simpa using hstring, trivial, ?_⟩
        exact h.of_infix (((List.suffix_cons c s).trans (List.suffix_append _ _)).isInfix)
      · exact ⟨by simp, hmode, by simpa [pending] using h⟩
  | backslash quote read =>
    simp only [pending] at h
    simp only [next]
    split
    · next hc =>
      -- The backslash is dropped, and the quote behind it keeps the two sides apart.
      have hquote : c ≠ '?' := hc ▸ hmode
      rw [Resolved.append_cons_iff (by decide), Resolved.cons_iff hquote] at h
      refine ⟨by simp, hmode, ?_⟩
      simpa [pending, Resolved.append_cons_iff hquote] using h
    · split
      · next hc =>
        rw [hc] at h
        exact ⟨by simp, hmode, by simpa [pending, hc] using h⟩
      · exact ⟨by simp, hmode, by simpa [pending] using h⟩

theorem sound_finish {mode : Mode} {tokens : List Token} (hmode : mode.Proper)
    (h : Resolved (mode.pending [])) (hfinish : mode.finish = some tokens) :
    ∀ token ∈ tokens, token.Sound := by
  cases mode with
  | gap =>
    cases hfinish
    simp
  | word read =>
    cases hfinish
    have hword : (Token.word read.reverse).Sound :=
      ⟨by simpa [Proper] using hmode, by simpa [pending] using h⟩
    simpa using hword
  | quoted quote read => cases hfinish
  | backslash quote read => cases hfinish

end Mode

theorem sound_lexFrom {mode : Mode} {s : List Char} {tokens : List Token} (hmode : mode.Proper)
    (h : Resolved (mode.pending s)) (hlex : lexFrom mode s = some tokens) :
    ∀ token ∈ tokens, token.Sound := by
  induction s generalizing mode tokens with
  | nil => exact Mode.sound_finish hmode h hlex
  | cons c s ih =>
    rw [lexFrom] at hlex
    obtain ⟨more, hmore, rfl⟩ := Option.map_eq_some_iff.mp hlex
    have hstep := Mode.step_next hmode h
    have hrest := ih hstep.proper hstep.resolved hmore
    exact List.forall_mem_append.mpr ⟨hstep.sound, hrest⟩

end Token

theorem Expr.allParams_iff {P : Expr → Prop} {params : List Expr} :
    AllParams P params ↔ ∀ e ∈ params, e.All P := by
  induction params with
  | nil => simp [AllParams]
  | cons e params ih => simp [AllParams, ih]

theorem Expr.allHash_iff {P : Expr → Prop} {hash : List (String × Expr)} :
    AllHash P hash ↔ ∀ pair ∈ hash, pair.2.All P := by
  induction hash with
  | nil => simp [AllHash]
  | cons pair hash ih => simp [AllHash, ih]

theorem Expr.allParams_append {P : Expr → Prop} {params : List Expr} {e : Expr}
    (h : AllParams P params) (he : e.All P) : AllParams P (params ++ [e]) := by
  rw [allParams_iff] at h ⊢
  exact List.forall_mem_append.mpr ⟨h, by simpa using he⟩

theorem Expr.allHash_append {P : Expr → Prop} {hash : List (String × Expr)} {key : String}
    {e : Expr} (h : AllHash P hash) (he : e.All P) : AllHash P (hash ++ [(key, e)]) := by
  rw [allHash_iff] at h ⊢
  exact List.forall_mem_append.mpr ⟨h, by simpa using he⟩

theorem Arguments.sound_empty : Arguments.Sound {} :=
  ⟨⟨trivial, trivial⟩, by simp⟩

structure Call.Sound (c : Call) : Prop where
  head : c.head.All Expr.Sound
  args : c.args.Sound
  blockParams : ∀ name ∈ c.blockParams, Named name

def Draft.Sound : Draft → Prop
  | fresh => True
  | ready head args => head.All Expr.Sound ∧ args.Sound
  | keyed head args key => head.All Expr.Sound ∧ args.Sound ∧ Named key

theorem Draft.sound_give {draft : Draft} {e : Expr} (h : draft.Sound) (he : e.All Expr.Sound) :
    (draft.give e).Sound := by
  cases draft with
  | fresh => exact ⟨he, Arguments.sound_empty⟩
  | ready head args =>
    obtain ⟨hhead, ⟨hparams, hhash⟩, hkeys⟩ := h
    exact ⟨hhead, ⟨Expr.allParams_append hparams he, hhash⟩, hkeys⟩
  | keyed head args key =>
    obtain ⟨hhead, ⟨⟨hparams, hhash⟩, hkeys⟩, hkey⟩ := h
    refine ⟨hhead, ⟨hparams, Expr.allHash_append hhash he⟩, ?_⟩
    simp only [List.forall_mem_append, List.forall_mem_singleton]
    exact ⟨hkeys, hkey⟩

namespace Call

theorem named_names {tokens : List Token} {found : List String}
    (h : ∀ token ∈ tokens, token.Sound) (hnames : names tokens = .ok found) :
    ∀ name ∈ found, Named name := by
  fun_induction names tokens generalizing found with
  | case1 name tokens ih =>
    rw [List.forall_mem_cons] at h
    cases hrest : names tokens with
    | error fault =>
      rw [hrest] at hnames
      cases hnames
    | ok more =>
      rw [hrest] at hnames
      cases hnames
      exact List.forall_mem_cons.mpr ⟨named_ofList h.1.1 h.1.2, ih h.2 hrest⟩
  | case2 =>
    cases hnames
    simp
  | case3 => cases hnames
  | case4 => cases hnames

theorem sound_resume {draft : Draft} {outer : List Draft} {tokens : List Token} {c : Call}
    (hdraft : draft.Sound) (houter : ∀ above ∈ outer, above.Sound)
    (h : ∀ token ∈ tokens, token.Sound) (hresume : resume draft outer tokens = .ok c) :
    c.Sound := by
  fun_induction resume draft outer tokens with
  | case1 draft outer =>
    cases draft with
    | fresh => cases hresume
    | keyed head args key => cases hresume
    | ready head args =>
      cases outer with
      | cons above outer => cases hresume
      | nil =>
        cases hresume
        exact ⟨hdraft.1, hdraft.2, by simp⟩
  | case3 draft outer tokens _ ih =>
    rw [List.forall_mem_cons] at h
    exact ih trivial (List.forall_mem_cons.mpr ⟨hdraft, houter⟩) h.2 hresume
  | case4 tokens helper args above outer ih =>
    rw [List.forall_mem_cons] at h houter
    obtain ⟨hhead, ⟨hparams, hhash⟩, hkeys⟩ := hdraft
    simp only [Expr.All, Expr.Sound] at hhead
    have hcall : (Expr.call helper args.params args.hash).All Expr.Sound := by
      simp only [Expr.All, Expr.Sound]
      exact ⟨⟨hhead, hkeys⟩, hparams, hhash⟩
    exact ih (Draft.sound_give houter.1 hcall) houter.2 h.2 hresume
  | case10 draft outer value tokens _ ih =>
    rw [List.forall_mem_cons] at h
    have hstring : (Expr.string (String.ofList value)).All Expr.Sound := by
      simp only [Expr.All, Expr.Sound, String.toList_ofList]
      exact h.1
    exact ih (Draft.sound_give hdraft hstring) houter h.2 hresume
  | case11 head args outer key tokens ih =>
    rw [List.forall_mem_cons, List.forall_mem_cons] at h
    exact ih ⟨hdraft.1, hdraft.2, named_ofList h.1.1 h.1.2⟩ houter h.2.2 hresume
  | case12 head args tokens =>
    rw [List.forall_mem_cons, List.forall_mem_cons] at h
    cases hnames : names tokens with
    | error fault =>
      rw [hnames] at hresume
      cases hresume
    | ok blockParams =>
      rw [hnames] at hresume
      cases hresume
      exact ⟨hdraft.1, hdraft.2, named_names h.2.2 hnames⟩
  | case13 draft outer word tokens _ hrefuses _ =>
    rw [if_pos hrefuses] at hresume
    cases hresume
  | case14 draft outer word tokens _ hrefuses _ ih =>
    rw [List.forall_mem_cons] at h
    rw [if_neg hrefuses] at hresume
    exact ih (Draft.sound_give hdraft (Expr.sound_ofWord h.1.1 h.1.2)) houter h.2 hresume
  | _ => cases hresume

theorem sound_parse {s : List Char} {c : Call} (h : Resolved s) (hparse : parse s = .ok c) :
    c.Sound := by
  unfold parse at hparse
  split at hparse
  · next tokens hlex =>
    have hgap : Token.Mode.gap.Proper := trivial
    have hfresh : Draft.fresh.Sound := trivial
    exact sound_resume hfresh (by simp) (Token.sound_lexFrom hgap h hlex) hparse
  · cases hparse

end Call

structure Opening.Sound (opening : Opening) : Prop where
  helper : opening.helper.Sound
  args : opening.args.Sound
  blockParams : ∀ name ∈ opening.blockParams, Named name

theorem Opening.sound_parse {s : List Char} {opening : Opening} (h : Resolved s)
    (hparse : Opening.parse s = .ok opening) : opening.Sound := by
  unfold parse at hparse
  split at hparse
  · cases hparse
  · next call hcall =>
    have hsound := Call.sound_parse h hcall
    split at hparse
    · next helper hhead =>
      cases hparse
      have hhelper := hsound.head
      rw [hhead] at hhelper
      simp only [Expr.All, Expr.Sound] at hhelper
      exact ⟨hhelper, hsound.args, hsound.blockParams⟩
    · cases hparse

namespace Directive

def Sound : Directive → Prop
  | comment text => Resolved text.toList
  | mustache head args _ => head.All Expr.Sound ∧ args.Sound
  | embed name args => name.All Expr.Sound ∧ args.Sound
  | .opening block => block.Sound
  | chain call => Resolved call
  | _ => True

theorem sound_ofMustache {s : List Char} {escaped : Bool} {d : Directive} (h : Resolved s)
    (hd : ofMustache s escaped = .ok d) : d.Sound := by
  unfold ofMustache at hd
  split at hd
  · cases hd
  · next call hcall =>
    have hsound := Call.sound_parse h hcall
    split at hd
    · cases hd
    · split at hd
      · cases hd
        exact ⟨hsound.head, hsound.args⟩
      · cases hd

theorem sound_ofOpening {s : List Char} {d : Directive} (h : Resolved s)
    (hd : ofOpening s = .ok d) : d.Sound := by
  unfold ofOpening at hd
  split at hd
  · cases hd
  · cases hd
  · cases hopening : Opening.parse s with
    | error fault =>
      rw [hopening] at hd
      cases hd
    | ok opening =>
      rw [hopening] at hd
      cases hd
      exact Opening.sound_parse h hopening

theorem sound_ofEmbed {s : List Char} {d : Directive} (h : Resolved s)
    (hd : ofEmbed s = .ok d) : d.Sound := by
  unfold ofEmbed at hd
  cases hcall : Call.parse s with
  | error fault =>
    rw [hcall] at hd
    cases hd
  | ok call =>
    rw [hcall] at hd
    cases hd
    have hsound := Call.sound_parse h hcall
    exact ⟨hsound.head, hsound.args⟩

theorem suffix_of_chained? {s call : List Char} (h : chained? s = some call) : call <:+ s := by
  unfold chained? at h
  split at h
  · split at h
    · cases h
      exact List.suffix_append ['e', 'l', 's', 'e'] _
    · cases h
  · cases h

theorem sound_ofPlain {s : List Char} {d : Directive} (h : Resolved s)
    (hd : ofPlain s = .ok d) : d.Sound := by
  unfold ofPlain at hd
  split at hd
  · cases hd
  · exact sound_ofOpening (h.of_infix (List.suffix_cons _ _).isInfix) hd
  · cases hd
    trivial
  · split at hd
    · cases hd
      trivial
    · cases hd
  · cases hd
  · exact sound_ofEmbed (h.of_infix (List.suffix_cons _ _).isInfix) hd
  · exact sound_ofMustache (h.of_infix (List.suffix_cons _ _).isInfix) hd
  · split at hd
    · cases hd
      trivial
    · split at hd
      · next call hcall =>
        cases hd
        exact h.of_infix (suffix_of_chained? hcall).isInfix
      · exact sound_ofMustache h hd

end Directive

def Form.body : Form → List Char
  | .plain body => body
  | .triple body => body
  | .comment body => body
  | .dashed body => body

theorem Directive.sound_ofTag {t : Tag} {d : Directive} (h : Resolved t.form.body)
    (hd : ofTag t = .ok d) : d.Sound := by
  unfold ofTag at hd
  cases hform : t.form with
  | comment body =>
    rw [hform] at h hd
    cases hd
    simpa [Sound, Form.body] using h
  | dashed body =>
    rw [hform] at h hd
    cases hd
    simpa [Sound, Form.body] using h
  | triple body =>
    rw [hform] at h hd
    exact sound_ofMustache h hd
  | plain body =>
    rw [hform] at h hd
    exact sound_ofPlain (h.of_infix (Text.isInfix_trim body)) hd

end Stencil.Handlebars
