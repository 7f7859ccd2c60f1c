import Stencil.Proofs.Handlebars.Spelling

/-!
# The grammar of calls

The tokens of a tag determine its call, and the call determines its tokens: a
head is followed by positional arguments, these by named ones, and the names
behind `as` come last. Only a call that introduces no names can be written in a
second way, with two bars behind `as` and nothing between them.
-/

namespace Stencil.Handlebars

namespace Expr

theorem tokensOfParams_append (params more : List Expr) :
    tokensOfParams (params ++ more) = tokensOfParams params ++ tokensOfParams more := by
  induction params with
  | nil => rfl
  | cons e params ih => rw [List.cons_append, tokensOfParams, tokensOfParams, ih, List.append_assoc]

theorem tokensOfHash_append (hash more : List (String × Expr)) :
    tokensOfHash (hash ++ more) = tokensOfHash hash ++ tokensOfHash more := by
  induction hash with
  | nil => rfl
  | cons pair hash ih =>
    obtain ⟨key, e⟩ := pair
    simp only [List.cons_append, tokensOfHash, ih, List.append_assoc]

/-- Words stand for expressions that words stand for. -/
theorem worded_ofWord (w : List Char) : (ofWord w).All Worded := by
  have hw : ∃ w', ofWord w' = ofWord w := ⟨w, rfl⟩
  generalize ofWord w = e at hw
  cases e with
  | call helper params hash =>
    obtain ⟨w', hw'⟩ := hw
    unfold ofWord at hw'
    repeat' split at hw'
    all_goals cases hw'
  | string s => simp only [All, Worded]
  | _ => simpa only [All, Worded] using hw

end Expr

namespace Draft

def tokens : Draft → List Token
  | fresh => []
  | ready head args =>
    head.tokens ++ Expr.tokensOfParams args.params ++ Expr.tokensOfHash args.hash
  | keyed head args key =>
    head.tokens ++ Expr.tokensOfParams args.params ++ Expr.tokensOfHash args.hash ++
      [.word key.toList, .equals]

/-- The tokens of a draft and of the calls around it, each of which has been read up to the
parenthesis that opens the next one. -/
def tokensWithin (draft : Draft) : List Draft → List Token
  | [] => draft.tokens
  | above :: outer => above.tokensWithin outer ++ .opening :: draft.tokens

theorem tokens_give {draft : Draft} (h : draft.refuses = false) (e : Expr) :
    (draft.give e).tokens = draft.tokens ++ e.tokens := by
  cases draft with
  | fresh => simp [give, tokens, Expr.tokensOfParams, Expr.tokensOfHash]
  | ready head args =>
    have hhash : args.hash = [] := by simpa [refuses] using h
    simp [give, tokens, hhash, Expr.tokensOfParams_append, Expr.tokensOfParams, Expr.tokensOfHash]
  | keyed head args key =>
    simp [give, tokens, Expr.tokensOfHash_append, Expr.tokensOfHash]

theorem tokensWithin_give {draft : Draft} (h : draft.refuses = false) (outer : List Draft)
    (e : Expr) : (draft.give e).tokensWithin outer = draft.tokensWithin outer ++ e.tokens := by
  cases outer <;> simp [tokensWithin, tokens_give h]

end Draft

namespace Call

theorem eq_of_names {tokens : List Token} {blockParams : List String}
    (h : names tokens = .ok blockParams) :
    tokens = blockParams.map (.word ·.toList) ++ [.pipe] := by
  fun_induction names tokens generalizing blockParams with
  | case1 name tokens ih =>
    cases hrest : names tokens with
    | error fault =>
      rw [hrest] at h
      cases h
    | ok more =>
      rw [hrest] at h
      cases h
      rw [ih hrest, List.map_cons, String.toList_ofList, List.cons_append]
  | case2 =>
    cases h
    rfl
  | case3 => cases h
  | case4 => cases h

/-- The tokens of a call, or those of a call that introduces no names with bars behind `as`. -/
def Spells (tokens : List Token) (c : Call) : Prop :=
  tokens = c.tokens ∨
    c.blockParams = [] ∧ tokens = c.tokens ++ [.word ['a', 's'], .pipe, .pipe]

/-- What is read from a draft on is spelled by the tokens of the drafts and the rest. -/
theorem spells_of_resume {draft : Draft} {outer : List Draft} {tokens : List Token} {c : Call}
    (houter : ∀ above ∈ outer, above.refuses = false)
    (h : resume draft outer tokens = .ok c) : Spells (draft.tokensWithin outer ++ tokens) c := by
  fun_induction resume draft outer tokens with
  | case1 draft outer =>
    cases draft with
    | fresh => cases h
    | keyed head args key => cases h
    | ready head args =>
      cases outer with
      | cons above outer => cases h
      | nil =>
        cases h
        exact .inl rfl
  | case3 draft outer tokens hrefuses ih =>
    have hdraft : draft.refuses = false := by simpa using hrefuses
    have hread := ih (List.forall_mem_cons.mpr ⟨hdraft, houter⟩) h
    simpa [Draft.tokensWithin, Draft.tokens] using hread
  | case4 tokens helper args above outer ih =>
    rw [List.forall_mem_cons] at houter
    have hread := ih houter.2 h
    rw [Draft.tokensWithin_give houter.1] at hread
    simpa [Draft.tokensWithin, Draft.tokens, Expr.tokens] using hread
  | case10 draft outer value tokens hrefuses ih =>
    have hread := ih houter h
    rw [Draft.tokensWithin_give (by simpa using hrefuses)] at hread
    simpa [Expr.tokens] using hread
  | case11 head args outer key tokens ih =>
    have hread := ih houter h
    cases outer <;> simpa [Draft.tokensWithin, Draft.tokens] using hread
  | case12 head args tokens =>
    cases hnames : names tokens with
    | error fault =>
      rw [hnames] at h
      cases h
    | ok blockParams =>
      rw [hnames] at h
      cases h
      rw [eq_of_names hnames]
      cases blockParams with
      | nil => exact .inr ⟨rfl, by simp [Call.tokens, tokensOfBlockParams, Draft.tokensWithin,
          Draft.tokens]⟩
      | cons name blockParams => exact .inl rfl
  | case13 draft outer word tokens _ hrefuses _ =>
    rw [if_pos hrefuses] at h
    cases h
  | case14 draft outer word tokens _ hrefuses _ ih =>
    rw [if_neg hrefuses] at h
    have hread := ih houter h
    rw [Draft.tokensWithin_give (by simpa using hrefuses), Expr.tokens_ofWord] at hread
    simpa using hread
  | _ => cases h

theorem worded_of_ofTokens {tokens : List Token} {c : Call} (h : ofTokens tokens = .ok c) :
    c.Worded := by
  have hfresh : Draft.fresh.All Expr.Worded := trivial
  obtain ⟨hhead, hargs⟩ := all_resume (fun _ => trivial) (fun _ _ _ hhelper => hhelper)
    (fun w _ => Expr.worded_ofWord w) hfresh (List.forall_mem_nil _) h
  exact ⟨hhead, hargs⟩

/-- The reader accepts what the grammar produces, and nothing else: the tokens of a call in which
every leaf is a string or what some word stands for. -/
theorem ofTokens_eq_ok_iff {tokens : List Token} {c : Call} :
    ofTokens tokens = .ok c ↔ c.Worded ∧ Spells tokens c := by
  constructor
  · intro h
    exact ⟨worded_of_ofTokens h, spells_of_resume (List.forall_mem_nil _) h⟩
  · rintro ⟨hworded, rfl | ⟨hnone, rfl⟩⟩
    · exact ofTokens_tokens hworded
    · obtain ⟨head, args, blockParams⟩ := c
      obtain rfl : blockParams = [] := hnone
      have hbars : Follows [.word ['a', 's'], .pipe, .pipe] := by simp [Follows]
      rw [Call.tokens, tokensOfBlockParams, List.append_nil,
        ofTokens_append hworded.head hworded.args hbars]
      exact resume_names head args []

/-- The tokens of a call are those of no other. -/
theorem eq_of_tokens_eq {c other : Call} (hc : c.Worded) (hother : other.Worded)
    (h : c.tokens = other.tokens) : c = other := by
  have hread := ofTokens_tokens hc
  rw [h, ofTokens_tokens hother] at hread
  exact (Except.ok.inj hread).symm

end Call

end Stencil.Handlebars
