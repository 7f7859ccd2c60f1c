import Stencil.Proofs.Handlebars.Grammar
import Stencil.Proofs.Handlebars.Gathering
import Stencil.Proofs.Handlebars.Occurrence

/-!
# What templates are read as

A reader of tags makes words that hold no mark, and strings that do not end in a
backslash, as a backslash there would protect the closing quote. So whatever is
read consists of words that keep their class when they are read again. The texts
between the tags are gathered into contents that are not empty and do not touch.
-/

namespace Stencil.Handlebars

open Text (Position)

namespace Token

/-- A token with a text that a tag can give it. -/
def Genuine : Token → Prop
  | word w => Solid w
  | string value => value.getLast? ≠ some '\\'
  | _ => True

/-- What has been read of a word is solid, and a string has not been read up to a backslash. -/
def Mode.Genuine : Mode → Prop
  | gap => True
  | word read => Solid read
  | quoted quote read => quote ≠ '\\' ∧ read.head? ≠ some '\\'
  | backslash quote _ => quote ≠ '\\'

theorem solid_cons {c : Char} {w : List Char} (hc : endsWord c = false)
    (hw : ∀ d ∈ w, endsWord d = false) : Solid (c :: w) :=
  ⟨List.cons_ne_nil c w, List.forall_mem_cons.mpr ⟨hc, hw⟩⟩

theorem solid_reverse {w : List Char} (h : Solid w) : Solid w.reverse :=
  ⟨by simpa using h.1, fun c hc => h.2 c (List.mem_reverse.mp hc)⟩

theorem genuine_mark? {c : Char} {token : Token} (h : mark? c = some token) : token.Genuine := by
  unfold mark? at h
  repeat' split at h
  all_goals cases h
  all_goals trivial

theorem genuine_fromGap (c : Char) :
    (∀ token ∈ (Mode.fromGap c).1, token.Genuine) ∧ (Mode.fromGap c).2.Genuine := by
  unfold Mode.fromGap
  split
  · exact ⟨by simp, trivial⟩
  next hblank =>
  split
  · next token hmark => exact ⟨by simpa using genuine_mark? hmark, trivial⟩
  next hmark =>
  split
  · next hquote =>
    have hslash : c ≠ '\\' := by
      rintro rfl
      revert hquote
      decide
    exact ⟨by simp, hslash, by simp⟩
  · next hquote =>
    have hc : endsWord c = false := by simp [endsWord, hblank, hmark, hquote]
    exact ⟨by simp, solid_cons hc (by simp)⟩

theorem genuine_next {mode : Mode} (h : mode.Genuine) (c : Char) :
    (∀ token ∈ (mode.next c).1, token.Genuine) ∧ (mode.next c).2.Genuine := by
  cases mode with
  | gap => exact genuine_fromGap c
  | word read =>
    obtain ⟨htokens, hmode⟩ := genuine_fromGap c
    by_cases hc : endsWord c = true
    · rw [Mode.next, if_pos hc]
      exact ⟨List.forall_mem_cons.mpr ⟨solid_reverse h, htokens⟩, hmode⟩
    · rw [Mode.next, if_neg hc]
      exact ⟨by simp, solid_cons (by simpa using hc) h.2⟩
  | quoted quote read =>
    obtain ⟨hquote, hread⟩ := h
    by_cases hslash : c = '\\'
    · rw [Mode.next, if_pos hslash]
      exact ⟨by simp, hquote⟩
    by_cases hend : c = quote
    · rw [Mode.next, if_neg hslash, if_pos hend]
      refine ⟨?_, trivial⟩
      simpa [Genuine, List.getLast?_reverse] using hread
    · rw [Mode.next, if_neg hslash, if_neg hend]
      exact ⟨by simp, hquote, by simpa using hslash⟩
  | backslash quote read =>
    by_cases hend : c = quote
    · rw [Mode.next, if_pos hend]
      have hquote : quote ≠ '\\' := h
      exact ⟨by simp, hquote, by simpa [hend] using hquote⟩
    by_cases hslash : c = '\\'
    · rw [Mode.next, if_neg hend, if_pos hslash]
      exact ⟨by simp, h⟩
    · rw [Mode.next, if_neg hend, if_neg hslash]
      exact ⟨by simp, h, by simpa using hslash⟩

theorem genuine_finish {mode : Mode} {tokens : List Token} (h : mode.Genuine)
    (hfinish : mode.finish = some tokens) : ∀ token ∈ tokens, token.Genuine := by
  cases mode with
  | gap =>
    cases hfinish
    simp
  | word read =>
    cases hfinish
    exact List.forall_mem_singleton.mpr (solid_reverse h)
  | quoted quote read => cases hfinish
  | backslash quote read => cases hfinish

theorem genuine_lexFrom {mode : Mode} {s : List Char} {tokens : List Token} (h : mode.Genuine)
    (hlex : lexFrom mode s = some tokens) : ∀ token ∈ tokens, token.Genuine := by
  induction s generalizing mode tokens with
  | nil => exact genuine_finish h hlex
  | cons c s ih =>
    rw [lexFrom] at hlex
    obtain ⟨more, hmore, rfl⟩ := Option.map_eq_some_iff.mp hlex
    obtain ⟨htokens, hnext⟩ := genuine_next h c
    exact List.forall_mem_append.mpr ⟨htokens, ih hnext hmore⟩

end Token

namespace Expr

/-- A word stands for a reference if it is none of the literals. -/
theorem legible_of_ofWord_eq_path {w : List Char} {p : Path} (hw : ofWord w = .path p)
    (hsolid : Solid p.spelling.toList) : p.Legible := by
  unfold ofWord at hw
  split at hw
  · cases hw
  next htrue =>
  split at hw
  · cases hw
  next hfalse =>
  split at hw
  · cases hw
  next hundefined =>
  split at hw
  · cases hw
  next hnull =>
  split at hw
  · cases hw
  next hnumber =>
  obtain rfl : Path.ofText w = p := Expr.path.inj hw
  have hspelling : (Path.ofText w).spelling.toList = w := String.toList_ofList
  refine ⟨Path.spelled_ofText w, hsolid, ?_⟩
  simp only [isLiteralWord, hspelling, Bool.or_eq_false_iff, decide_eq_false_iff_not]
  exact ⟨⟨⟨⟨htrue, hfalse⟩, hundefined⟩, hnull⟩, Bool.eq_false_iff.mpr hnumber⟩

theorem isNumber_of_ofWord_eq_number {w : List Char} {n : String} (hw : ofWord w = .number n) :
    isNumber n.toList = true := by
  unfold ofWord at hw
  repeat' split at hw
  all_goals cases hw
  next hnumber => rwa [String.toList_ofList]

mutual

/-- An expression that words and strings stand for is legible if the tokens are genuine. -/
theorem legible_of_tokens : ∀ {e : Expr}, e.All Worded →
    (∀ token ∈ e.tokens, token.Genuine) → e.All Legible
  | path p, hw, h => by
    obtain ⟨w, hword⟩ : Worded (path p) := hw
    exact legible_of_ofWord_eq_path hword (h _ List.mem_cons_self)
  | call helper params hash, hw, h => by
    simp only [All, Worded] at hw
    obtain ⟨⟨w, hword⟩, hparams, hhash⟩ := hw
    simp only [tokens, List.forall_mem_cons, List.forall_mem_append] at h
    obtain ⟨-, hhelper, ⟨hinner, hnamed⟩, -⟩ := h
    obtain ⟨hkeys, hvalues⟩ := legible_of_tokensOfHash hhash hnamed
    simp only [All, Legible]
    exact ⟨⟨legible_of_ofWord_eq_path hword hhelper, hkeys⟩,
      legible_of_tokensOfParams hparams hinner, hvalues⟩
  | string s, _, h => h _ List.mem_cons_self
  | number n, hw, h => by
    obtain ⟨w, hword⟩ : Worded (number n) := hw
    exact ⟨h _ List.mem_cons_self, isNumber_of_ofWord_eq_number hword⟩
  | boolean b, _, _ => trivial
  | undefined, _, _ => trivial
  | null, _, _ => trivial

theorem legible_of_tokensOfParams : ∀ {params : List Expr}, AllParams Worded params →
    (∀ token ∈ tokensOfParams params, token.Genuine) → AllParams Legible params
  | [], _, _ => trivial
  | e :: params, hw, h => by
    rw [tokensOfParams, List.forall_mem_append] at h
    exact ⟨legible_of_tokens hw.1 h.1, legible_of_tokensOfParams hw.2 h.2⟩

theorem legible_of_tokensOfHash : ∀ {hash : List (String × Expr)}, AllHash Worded hash →
    (∀ token ∈ tokensOfHash hash, token.Genuine) →
      (∀ pair ∈ hash, Solid pair.1.toList) ∧ AllHash Legible hash
  | [], _, _ => ⟨by simp, trivial⟩
  | (key, e) :: hash, hw, h => by
    simp only [tokensOfHash, List.forall_mem_cons, List.forall_mem_append] at h
    obtain ⟨hkey, -, hvalue, hmore⟩ := h
    obtain ⟨hkeys, hvalues⟩ := legible_of_tokensOfHash hw.2 hmore
    exact ⟨List.forall_mem_cons.mpr ⟨hkey, hkeys⟩, legible_of_tokens hw.1 hvalue, hvalues⟩

end

end Expr

namespace Call

theorem solid_of_tokensOfBlockParams {names : List String}
    (h : ∀ token ∈ tokensOfBlockParams names, token.Genuine) :
    ∀ name ∈ names, Solid name.toList := by
  cases names with
  | nil => simp
  | cons first names =>
    simp only [tokensOfBlockParams, List.forall_mem_cons, List.forall_mem_append] at h
    intro name hname
    exact h.2.2.1 _ (List.mem_map_of_mem hname)

theorem Spells.subset {tokens : List Token} {c : Call} (h : Spells tokens c) :
    c.tokens ⊆ tokens := by
  rcases h with rfl | ⟨-, rfl⟩
  · exact fun _ htoken => htoken
  · exact List.subset_append_left _ _

/-- A call that was read can be spelled again. -/
theorem legible_parse {s : List Char} {c : Call} (h : parse s = .ok c) : c.Legible := by
  unfold parse at h
  split at h
  · next tokens hlex =>
    obtain ⟨hworded, hspells⟩ := ofTokens_eq_ok_iff.mp h
    have hgap : Token.Mode.gap.Genuine := trivial
    have hread := Token.genuine_lexFrom hgap hlex
    have htokens : ∀ token ∈ c.tokens, token.Genuine :=
      fun token htoken => hread token (hspells.subset htoken)
    simp only [Call.tokens, List.forall_mem_append] at htokens
    obtain ⟨⟨⟨hhead, hparams⟩, hhash⟩, hnames⟩ := htokens
    obtain ⟨hkeys, hvalues⟩ := Expr.legible_of_tokensOfHash hworded.args.2 hhash
    exact ⟨Expr.legible_of_tokens hworded.head hhead,
      ⟨⟨Expr.legible_of_tokensOfParams hworded.args.1 hparams, hvalues⟩, hkeys⟩,
      solid_of_tokensOfBlockParams hnames⟩
  · cases h

end Call

structure Opening.Legible (o : Opening) : Prop where
  helper : o.helper.Legible
  args : o.args.Legible
  names : ∀ name ∈ o.blockParams, Solid name.toList

def Statement.Legible : Statement → Prop
  | .content text => text ≠ ""
  | .comment _ => True
  | .mustache head args _ => head.isCall = false ∧ head.All Expr.Legible ∧ args.Legible
  | .block helper args program inverse =>
    helper.Legible ∧ args.Legible ∧ (∀ name ∈ program.blockParams, Solid name.toList) ∧
      Apart program.body ∧ ∀ other ∈ inverse, other.blockParams = [] ∧ Apart other.body
  | .embed name args => name.All Expr.Legible ∧ args.Legible

/-- A program that a template can be read as. -/
structure Program.Legible (p : Program) : Prop where
  root : p.blockParams = []
  apart : Apart p.body
  statements : AllBody Statement.Legible p.body

theorem inherits_legible : Inherits Statement.Legible Opening.Legible := by
  intro opening program inverse hopening hnames hprogram hinverse
  exact ⟨hopening.helper, hopening.args, hnames ▸ hopening.names, hprogram, hinverse⟩

theorem Opening.legible_of_call {o : Opening} {s : List Char}
    (h : Call.parse s = .ok ⟨.path o.helper, o.args, o.blockParams⟩) : o.Legible := by
  have hcall := Call.legible_parse h
  exact ⟨hcall.head, hcall.args, hcall.names⟩

namespace Directive

theorem legible_ofMustache {s : List Char} {escaped : Bool} {d : Directive}
    (h : ofMustache s escaped = .ok d) : d.Keeps Statement.Legible Opening.Legible := by
  obtain ⟨head, args, rfl, hcall, hhead⟩ := ofMustache_eq_ok h
  have hlegible := Call.legible_parse hcall
  exact ⟨hhead, hlegible.head, hlegible.args⟩

theorem legible_ofPlain {s : List Char} {d : Directive} (h : ofPlain s = .ok d) :
    d.Keeps Statement.Legible Opening.Legible := by
  unfold ofPlain at h
  split at h
  · cases h
  · obtain ⟨o, rfl, hcall⟩ := ofOpening_eq_ok h
    exact Opening.legible_of_call hcall
  · cases h
    trivial
  · split at h
    · cases h
      trivial
    · cases h
  · cases h
  · obtain ⟨call, rfl, hcall⟩ := ofEmbed_eq_ok h
    have hlegible := Call.legible_parse hcall
    exact ⟨hlegible.head, hlegible.args⟩
  · exact legible_ofMustache h
  · split at h
    · cases h
      trivial
    · split at h
      · cases h
        exact fun o ho => Opening.legible_of_call (Opening.parse_eq_ok ho)
      · exact legible_ofMustache h

theorem legible_ofTag {t : Tag} {d : Directive} (h : ofTag t = .ok d) :
    d.Keeps Statement.Legible Opening.Legible := by
  unfold ofTag at h
  split at h
  · cases h
    trivial
  · cases h
    trivial
  · exact legible_ofMustache h
  · exact legible_ofPlain h

end Directive

namespace Segment

def Full : Segment → Prop
  | text run => run ≠ []
  | _ => True

theorem full_consText {segments : List Segment} (h : ∀ segment ∈ segments, segment.Full)
    (run : List Char) : ∀ segment ∈ consText run segments, segment.Full := by
  cases run with
  | nil => exact h
  | cons c run =>
    have hfull : ∀ more, (text (c :: run ++ more)).Full := fun more => List.cons_ne_nil c _
    unfold consText
    split
    · contradiction
    · rw [List.forall_mem_cons] at h ⊢
      exact ⟨hfull _, h.2⟩
    · have hrun := hfull []
      rw [List.append_nil] at hrun
      exact List.forall_mem_cons.mpr ⟨hrun, h⟩

theorem full_tidy (left : Bool) (segments : List Segment) :
    ∀ segment ∈ tidy left segments, segment.Full := by
  induction segments generalizing left with
  | nil => simp [tidy]
  | cons segment segments ih =>
    cases segment with
    | text run => exact full_consText (ih false) _
    | tag position t => exact List.forall_mem_cons.mpr ⟨trivial, ih t.trimRight⟩
    | broken position fault => exact List.forall_mem_cons.mpr ⟨trivial, ih false⟩

theorem Full.keeps {segment : Segment} (h : segment.Full) :
    segment.Keeps Statement.Legible Opening.Legible := by
  cases segment with
  | text run =>
    intro hempty
    exact h (by rw [← String.toList_ofList (l := run), hempty]; rfl)
  | tag position t => exact fun _ hd => Directive.legible_ofTag hd
  | broken position fault => trivial

end Segment

/-- Whatever template is read, its contents are not empty and stand apart on every level, its
references, keys and names are words of their kind, no string ends in a backslash, nothing but a
block's main program introduces names, and no call is interpolated. -/
theorem Program.legible_of_parse {source : String} {p : Program} (h : parse source = .ok p) :
    p.Legible := by
  have hgathered := gathered_ofText inherits_legible
    (fun segment hsegment => (Segment.full_tidy false _ segment hsegment).keeps) h
  obtain ⟨current, -, rfl⟩ := ofText_eq_ok_iff.mp h
  exact ⟨rfl, hgathered.apart, hgathered.all⟩

/-- A source with tildes around blanks, an escaped tag, names, a chain and calls in each other. -/
def mixedSource : String :=
  "a \x7b\x7b~#each (all 'it\\'s' of=-1.5) as |x i| ~\x7d\x7d \\\x7b\x7bi\x7d\x7d " ++
    "\x7b\x7b\x7b../x.n (f null (g \"\"))\x7d\x7d\x7d\x7b\x7belse if b=true~\x7d\x7d " ++
      "\x7b\x7b> 'c' d=@key\x7d\x7d\x7b\x7b^\x7d\x7d\x7b\x7b!--e--\x7d\x7d\x7b\x7b/each\x7d\x7d"

theorem Program.legible_of_parse_mixedSource : ∃ p, parse mixedSource = .ok p ∧ p.Legible := by
  have hread : (parse mixedSource).toOption.isSome = true := by decide +kernel
  cases hparse : parse mixedSource with
  | error e =>
    rw [hparse] at hread
    cases hread
  | ok p => exact ⟨p, rfl, legible_of_parse hparse⟩

end Stencil.Handlebars
