import Stencil.Proofs.Handlebars.Outline
import Stencil.Proofs.Handlebars.Soundness

/-!
# Spelled references

A reference keeps the text it was read from, and that text determines it. So two
references of a template that are spelled alike are the same one. Expressions
are made of words, strings and calls, and all of them come from the tags whose
headings a program consists of.
-/

namespace Stencil.Handlebars

/-- A reference that is what its spelling says. -/
def Path.Spelled (p : Path) : Prop :=
  p = .parse p.spelling

theorem Path.spelled_ofText (w : List Char) : (Path.ofText w).Spelled := by
  have hspelling : (ofText w).spelling.toList = w := String.toList_ofList
  rw [Spelled, parse, hspelling]

theorem Path.Spelled.eq_parse {p : Path} {spelling : String} (h : p.Spelled)
    (hp : p.spelling = spelling) : p = .parse spelling :=
  hp ▸ h

/-- The condition on one expression that its reference, or the name of its helper, is what its
spelling says. -/
def Expr.Spelled : Expr → Prop
  | .path p => p.Spelled
  | .call helper _ _ => helper.Spelled
  | _ => True

section
variable {P : Expr → Prop} (hstring : ∀ s, P (.string s))
variable (hcall : ∀ helper params hash, P (.path helper) → P (.call helper params hash))

def Draft.All (P : Expr → Prop) : Draft → Prop
  | fresh => True
  | ready head args => head.All P ∧ args.All P
  | keyed head args _ => head.All P ∧ args.All P

theorem Draft.all_give {draft : Draft} {e : Expr} (h : draft.All P) (he : e.All P) :
    (draft.give e).All P := by
  cases draft with
  | fresh => exact ⟨he, trivial, trivial⟩
  | ready head args => exact ⟨h.1, Expr.allParams_append h.2.1 he, h.2.2⟩
  | keyed head args key => exact ⟨h.1, h.2.1, Expr.allHash_append h.2.2 he⟩

include hstring hcall

/-- What holds of words and strings, and of a call if it holds of its helper, holds of all
expressions that are read. -/
theorem Call.all_resume {draft : Draft} {outer : List Draft} {tokens : List Token} {c : Call}
    (hword : ∀ w, .word w ∈ tokens → (Expr.ofWord w).All P)
    (hdraft : draft.All P) (houter : ∀ above ∈ outer, above.All P)
    (hresume : resume draft outer tokens = .ok c) : c.head.All P ∧ c.args.All P := by
  have hrest {token : Token} {tokens : List Token}
      (h : ∀ w, .word w ∈ token :: tokens → (Expr.ofWord w).All P) :
      ∀ w, .word w ∈ tokens → (Expr.ofWord w).All P :=
    fun w hw => h w (List.mem_cons_of_mem token hw)
  fun_induction resume draft outer tokens with
  | case1 draft outer =>
    cases draft with
    | fresh => cases hresume
    | keyed head args key => cases hresume
    | ready head args =>
      cases outer with
      | cons above outer => cases hresume
      | nil =>
        cases hresume
        exact hdraft
  | case3 draft outer tokens _ ih =>
    exact ih (hrest hword) trivial (List.forall_mem_cons.mpr ⟨hdraft, houter⟩) hresume
  | case4 tokens helper args above outer ih =>
    rw [List.forall_mem_cons] at houter
    obtain ⟨hhead, hparams, hhash⟩ := hdraft
    rw [Expr.All] at hhead
    have hgiven : (Expr.call helper args.params args.hash).All P := by
      rw [Expr.All]
      exact ⟨hcall helper _ _ hhead, hparams, hhash⟩
    exact ih (hrest hword) (Draft.all_give houter.1 hgiven) houter.2 hresume
  | case10 draft outer value tokens _ ih =>
    have hgiven : (Expr.string (String.ofList value)).All P := by
      rw [Expr.All]
      exact hstring _
    exact ih (hrest hword) (Draft.all_give hdraft hgiven) houter hresume
  | case11 head args outer key tokens ih => exact ih (hrest (hrest hword)) hdraft houter hresume
  | case12 head args tokens =>
    cases hnames : names tokens with
    | error fault =>
      rw [hnames] at hresume
      cases hresume
    | ok blockParams =>
      rw [hnames] at hresume
      cases hresume
      exact hdraft
  | case13 draft outer word tokens _ hrefuses _ =>
    rw [if_pos hrefuses] at hresume
    cases hresume
  | case14 draft outer word tokens _ hrefuses _ ih =>
    rw [if_neg hrefuses] at hresume
    exact ih (hrest hword) (Draft.all_give hdraft (hword word List.mem_cons_self)) houter hresume
  | _ => cases hresume

theorem Call.all_parse {s : List Char} {c : Call}
    (hword : ∀ tokens ∈ Token.lex s, ∀ w, .word w ∈ tokens → (Expr.ofWord w).All P)
    (hparse : parse s = .ok c) : c.head.All P ∧ c.args.All P := by
  unfold parse at hparse
  split at hparse
  · next tokens hlex =>
    have hfresh : Draft.fresh.All P := trivial
    exact all_resume hstring hcall (hword tokens hlex) hfresh (List.forall_mem_nil _) hparse
  · cases hparse

end

theorem Expr.spelled_ofWord (w : List Char) : (Expr.ofWord w).All Expr.Spelled := by
  unfold ofWord
  repeat' split
  all_goals simp only [All, Spelled]
  exact Path.spelled_ofText w

theorem Call.spelled_parse {s : List Char} {c : Call} (h : parse s = .ok c) :
    c.head.All Expr.Spelled ∧ c.args.All Expr.Spelled :=
  all_parse (fun _ => trivial) (fun _ _ _ h => h) (fun _ _ w _ => Expr.spelled_ofWord w) h

def Heading.Spelled : Heading → Prop
  | leaf (.mustache head args _) => head.All Expr.Spelled ∧ args.All Expr.Spelled
  | leaf (.embed name args) => name.All Expr.Spelled ∧ args.All Expr.Spelled
  | leaf _ => True
  | block opening _ => opening.args.All Expr.Spelled

theorem Says.spelled {t : Tag} {sign : Sign} {inverse : Bool} {heading : Heading}
    (h : Says t sign) (hheading : sign.heading? inverse = some heading) : heading.Spelled := by
  cases h with
  | comment hform =>
    cases hheading
    trivial
  | triple hform hcall =>
    cases hheading
    exact Call.spelled_parse hcall
  | raw hform hbody hcall =>
    cases hheading
    exact Call.spelled_parse hcall
  | escaped hform hbody hcall =>
    cases hheading
    exact Call.spelled_parse hcall
  | embed hform hbody hcall =>
    cases hheading
    exact Call.spelled_parse hcall
  | opening hform hbody hcall =>
    cases hheading
    exact (Call.spelled_parse hcall).2
  | chain hform hbody hblank hcall =>
    cases hheading
    exact (Call.spelled_parse hcall).2
  | otherwise hform hbody => cases hheading
  | closing hform hbody => cases hheading

theorem exists_of_mem_headingsFrom {inverted : Nat → Bool} {number : Nat} {signs : List Sign}
    {heading : Heading} (h : heading ∈ headingsFrom inverted number signs) :
    ∃ sign ∈ signs, ∃ inverse, sign.heading? inverse = some heading := by
  induction signs generalizing number with
  | nil => cases h
  | cons sign signs ih =>
    rw [headingsFrom, List.mem_append, Option.mem_toList] at h
    obtain h | h := h
    · exact ⟨sign, List.mem_cons_self, _, h⟩
    · obtain ⟨other, hother, hheading⟩ := ih h
      exact ⟨other, List.mem_cons_of_mem sign hother, hheading⟩

/-- All references of a program that is read are what their spellings say. -/
theorem Program.spelled_parse {source : String} {p : Program} (h : parse source = .ok p) :
    ∀ heading ∈ outlineOf p.body, heading.Spelled := by
  obtain ⟨tags, signs, -, hsaid, hreached⟩ := exists_reached h
  intro heading hheading
  rw [outlineOf_of_reached hreached] at hheading
  obtain ⟨sign, hsign, inverse, hannounced⟩ := exists_of_mem_headingsFrom hheading
  obtain ⟨k, hk, rfl⟩ := List.getElem_of_mem hsign
  exact (hsaid.get (hsaid.length_eq ▸ hk) hk).spelled hannounced

end Stencil.Handlebars
