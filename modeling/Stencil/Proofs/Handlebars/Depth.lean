import Stencil.Proofs.Handlebars.Strings

/-!
# The limit on nesting

Only an opening tag can be refused for the depth at which it stands, and only if
nothing else is wrong with it: what is read from a tag never has this fault, and
neither has an `else` or a closing tag.
-/

namespace Stencil.Handlebars

open Text (Position)

/-- If there is no result, the limit on nesting is not to blame. -/
def Shallow {α : Type} (result : Except Fault α) : Prop :=
  ∀ limit, result ≠ .error (.tooDeep limit)

section
variable {α β : Type}

@[simp] theorem shallow_ok (a : α) : Shallow (.ok a) := nofun

@[simp] theorem shallow_error_iff {fault : Fault} :
    Shallow (.error fault : Except Fault α) ↔ ∀ limit, fault ≠ .tooDeep limit := by
  simp [Shallow]

theorem Shallow.map {result : Except Fault α} (h : Shallow result) (f : α → β) :
    Shallow (result.map f) := by
  cases result with
  | ok a => exact shallow_ok (f a)
  | error fault => exact shallow_error_iff.mpr (shallow_error_iff.mp h)

theorem Shallow.error {result : Except Fault α} {fault : Fault} (h : Shallow result)
    (hfault : result = .error fault) : Shallow (.error fault : Except Fault β) := by
  rw [hfault] at h
  exact shallow_error_iff.mpr (shallow_error_iff.mp h)

end

namespace Call

theorem shallow_names (tokens : List Token) : Shallow (names tokens) := by
  fun_induction names tokens with
  | case1 name tokens ih => exact ih.map _
  | _ => simp

theorem shallow_resume (draft : Draft) (outer : List Draft) (tokens : List Token) :
    Shallow (resume draft outer tokens) := by
  fun_induction resume draft outer tokens with
  | case1 draft outer => cases draft <;> cases outer <;> simp [finish]
  | case12 => exact (shallow_names _).map _
  | _ => simp_all

theorem shallow_parse (s : List Char) : Shallow (parse s) := by
  unfold parse
  split
  · exact shallow_resume .fresh [] _
  · simp

end Call

theorem Opening.shallow_parse (s : List Char) : Shallow (parse s) := by
  unfold parse
  split
  · next fault hfault => exact (Call.shallow_parse s).error hfault
  · split <;> simp

namespace Directive

theorem shallow_ofMustache (s : List Char) (escaped : Bool) : Shallow (ofMustache s escaped) := by
  unfold ofMustache
  split
  · next fault hfault => exact (Call.shallow_parse s).error hfault
  · split
    · simp
    · split <;> simp

theorem shallow_ofOpening (s : List Char) : Shallow (ofOpening s) := by
  unfold ofOpening
  split
  · simp
  · simp
  · exact (Opening.shallow_parse _).map _

theorem shallow_ofPlain (s : List Char) : Shallow (ofPlain s) := by
  unfold ofPlain
  split
  · simp
  · exact shallow_ofOpening _
  · simp
  · split <;> simp
  · simp
  · exact (Call.shallow_parse _).map _
  · exact shallow_ofMustache _ false
  · split
    · simp
    · split
      · simp
      · exact shallow_ofMustache _ true

theorem shallow_ofTag (t : Tag) : Shallow (ofTag t) := by
  unfold ofTag
  split
  · simp
  · simp
  · exact shallow_ofMustache _ false
  · exact shallow_ofPlain _

end Directive

/-- A well-formed opening tag: behind the hash sign stands a call whose head is a reference, and
neither of the two signs that would make something else of the block. -/
def Tag.Opens (t : Tag) (o : Opening) : Prop :=
  ∃ body inner, t.form = .plain body ∧ Text.trim body = '#' :: inner ∧
    inner.head? ≠ some '>' ∧ inner.head? ≠ some '*' ∧
    Call.parse inner = .ok ⟨.path o.helper, o.args, o.blockParams⟩

namespace Directive

theorem ofOpening_eq_opening_iff {s : List Char} {o : Opening} :
    ofOpening s = .ok (.opening o) ↔ s.head? ≠ some '>' ∧ s.head? ≠ some '*' ∧
      Call.parse s = .ok ⟨.path o.helper, o.args, o.blockParams⟩ := by
  constructor
  · intro h
    obtain ⟨other, hother, hcall⟩ := ofOpening_eq_ok h
    cases hother
    refine ⟨?_, ?_, hcall⟩ <;>
    · intro hhead
      obtain ⟨s, rfl⟩ := List.head?_eq_some_iff.mp hhead
      cases h
  · rintro ⟨hembed, hstar, hcall⟩
    have hparse : Opening.parse s = .ok o := by
      rw [Opening.parse, hcall]
    unfold ofOpening
    split
    · exact absurd rfl hembed
    · exact absurd rfl hstar
    · rw [hparse]
      rfl

theorem ofPlain_eq_opening {s : List Char} {o : Opening} (h : ofPlain s = .ok (.opening o)) :
    ∃ inner, s = '#' :: inner ∧ ofOpening inner = .ok (.opening o) := by
  unfold ofPlain at h
  split at h
  · cases h
  · exact ⟨_, rfl, h⟩
  · cases h
  · split at h <;> cases h
  · cases h
  · obtain ⟨c, hc, -⟩ := ofEmbed_eq_ok h
    cases hc
  · obtain ⟨head, args, hm, -⟩ := ofMustache_eq_ok h
    cases hm
  · split at h
    · cases h
    · split at h
      · cases h
      · obtain ⟨head, args, hm, -⟩ := ofMustache_eq_ok h
        cases hm

theorem ofTag_eq_opening_iff {t : Tag} {o : Opening} :
    ofTag t = .ok (.opening o) ↔ t.Opens o := by
  obtain ⟨left, form, right⟩ := t
  constructor
  · intro h
    cases form with
    | comment body => cases h
    | dashed body => cases h
    | triple body =>
      obtain ⟨head, args, hm, -⟩ := ofMustache_eq_ok h
      cases hm
    | plain body =>
      obtain ⟨inner, hbody, hopening⟩ := ofPlain_eq_opening h
      exact ⟨body, inner, rfl, hbody, ofOpening_eq_opening_iff.mp hopening⟩
  · rintro ⟨body, inner, hform, hbody, hopening⟩
    obtain rfl : form = .plain body := hform
    change ofPlain (Text.trim body) = _
    rw [hbody]
    exact ofOpening_eq_opening_iff.mpr hopening

end Directive

theorem Tag.shallow_read (s : List Char) : Shallow (read s) := by
  have hform (s : List Char) : Shallow (readForm s) := by
    unfold readForm
    repeat' split
    all_goals simp
  unfold read
  split
  · next fault hfault => exact (hform _).error hfault
  · simp

namespace Nesting

theorem shallow_invert (n : Nesting) : Shallow n.invert := by
  unfold invert
  split
  · simp
  · split <;> simp

theorem shallow_close (name : String) (current : List Statement) (blocks : List OpenBlock) :
    Shallow (close name current blocks) := by
  fun_induction close name current blocks <;> simp_all

theorem step_eq_tooDeep_iff {n : Nesting} {position : Position} {d : Directive} {limit : Nat} :
    n.step position d = .error (.tooDeep limit) ↔
      (∃ o, d = .opening o) ∧ maxNesting ≤ n.depth ∧ limit = maxNesting := by
  cases d with
  | comment text => simp [step]
  | mustache head args escaped => simp [step]
  | embed name args => simp [step]
  | opening o =>
    rw [step]
    by_cases hdepth : maxNesting ≤ n.depth <;> simp [hdepth, eq_comm]
  | otherwise => simp [step, n.shallow_invert limit]
  | chain call =>
    have hshallow : Shallow (n.step position (.chain call)) := by
      rw [step]
      split
      · next fault hfault => exact n.shallow_invert.error hfault
      · exact (Opening.shallow_parse call).map _
    simp [hshallow limit]
  | closing name => simp [step, shallow_close name n.current n.blocks limit]

/-- The limit is reported for well-formed opening tags at the limit and for no others. -/
theorem apply_eq_tooDeep_iff {n : Nesting} {position p : Position} {t : Tag} {limit : Nat} :
    n.apply position t = .error ⟨p, .tooDeep limit⟩ ↔
      p = position ∧ limit = maxNesting ∧ maxNesting ≤ n.depth ∧ ∃ o, t.Opens o := by
  simp only [← Directive.ofTag_eq_opening_iff]
  rw [apply]
  cases hd : Directive.ofTag t with
  | error fault =>
    have hshallow := Directive.shallow_ofTag t limit
    rw [hd] at hshallow
    simp only [Except.error.injEq, SyntaxError.mk.injEq, reduceCtorEq, exists_false, and_false,
      iff_false, not_and]
    rintro - rfl
    exact hshallow rfl
  | ok d =>
    have hlimit : p = position ∧ limit = maxNesting ∧ maxNesting ≤ n.depth ∧
        (∃ o, (Except.ok d : Except Fault _) = .ok (.opening o)) ↔
          p = position ∧ n.step position d = .error (.tooDeep limit) := by
      simp only [step_eq_tooDeep_iff, Except.ok.injEq]
      tauto
    rw [hlimit]
    cases hresult : n.step position d with
    | error fault => simp [Except.mapError, hresult, eq_comm]
    | ok m => simp [Except.mapError, hresult]

end Nesting

end Stencil.Handlebars
