import Stencil.Cache
import Stencil.Text.Digest

/-!
# The cache cannot be seen

A program is kept under a name with the digest of the source it was read from,
and this is all that a cache ever holds. As long as no two sources under one
name have the same digest, a program that is found was read from the very source
that is presented, so every request is answered as if nothing were kept.
-/

namespace Stencil.Cache

open Handlebars (Program SyntaxError)

def Request.presents? : Request → Option (String × String)
  | .convert _ name source => some (name, source)
  | .handOut _ name source => some (name, source)
  | .forget _ => none

/-- The answer to a request where nothing is kept. -/
def Request.fresh : Request → Answer
  | .convert o _ source => .document (Document.ofSource o source)
  | .handOut o _ source => .text ((Document.ofSource o source).map fun d =>
      (if o.sourceComment then Document.withSourceComment d.output source else d.output,
        d.diagnostics))
  | .forget _ => .done

def presented (requests : List Request) : List (String × String) :=
  requests.filterMap Request.presents?

/-- No two sources under one name have the same digest. -/
def Distinguishes (digest : String → UInt64) (known : List (String × String)) : Prop :=
  ∀ first ∈ known, ∀ second ∈ known, first.1 = second.1 → digest first.2 = digest second.2 →
    first.2 = second.2

instance (digest : String → UInt64) (known : List (String × String)) :
    Decidable (Distinguishes digest known) :=
  inferInstanceAs (Decidable (∀ first ∈ known, ∀ second ∈ known, _))

/-- Everything that is kept was read from a source that is known under its name. -/
def Sound (digest : String → UInt64) (known : List (String × String)) (cache : Cache) : Prop :=
  ∀ name entry, cache.get? name = some entry →
    ∃ source, (name, source) ∈ known ∧ entry.digest = digest source ∧
      Program.parse source = .ok entry.program

section
variable {digest : String → UInt64} {known : List (String × String)} {cache : Cache}
variable {name source : String}

theorem sound_empty : Sound digest known .empty := by
  intro name entry h
  cases h

theorem hit?_eq_some {program : Program} (h : hit? digest cache name source = some program) :
    ∃ entry, cache.get? name = some entry ∧ entry.digest = digest source ∧
      entry.program = program := by
  unfold hit? at h
  split at h
  · next entry hentry =>
    split at h
    · next hdigest =>
      cases h
      exact ⟨entry, hentry, hdigest, rfl⟩
    · cases h
  · cases h

/-- What is found was read from the source that is presented. -/
theorem Sound.parse_of_hit? {program : Program} (hsound : Sound digest known cache)
    (hdistinct : Distinguishes digest known) (hmem : (name, source) ∈ known)
    (h : hit? digest cache name source = some program) : Program.parse source = .ok program := by
  obtain ⟨entry, hentry, hdigest, rfl⟩ := hit?_eq_some h
  obtain ⟨other, hother, hkept, hread⟩ := hsound name entry hentry
  have hsame : other = source := hdistinct _ hother _ hmem rfl (hkept.symm.trans hdigest)
  rwa [hsame] at hread

theorem Sound.put {program : Program} (hsound : Sound digest known cache)
    (hmem : (name, source) ∈ known) (hread : Program.parse source = .ok program) :
    Sound digest known (cache.put name ⟨digest source, program⟩) := by
  intro other entry h
  rw [Dictionary.get?_put] at h
  split at h
  · next hname =>
    cases h
    exact ⟨source, hname ▸ hmem, rfl, hread⟩
  · exact hsound other entry h

theorem Sound.forget (hsound : Sound digest known cache) (name : String) :
    Sound digest known (cache.forget name) := by
  intro other entry h
  rw [Cache.forget, Dictionary.get?_erase] at h
  split at h
  · cases h
  · exact hsound other entry h

/-- A source is read as it would be without the cache, and the cache stays sound. -/
theorem Sound.parse (hsound : Sound digest known cache) (hdistinct : Distinguishes digest known)
    (hmem : (name, source) ∈ known) :
    (Cache.parse digest cache name source).1 = Program.parse source ∧
      Sound digest known (Cache.parse digest cache name source).2 := by
  unfold Cache.parse
  split
  · next program hhit => exact ⟨(hsound.parse_of_hit? hdistinct hmem hhit).symm, hsound⟩
  · split
    · next program hread => exact ⟨hread.symm, hsound.put hmem hread⟩
    · next e hread => exact ⟨hread.symm, hsound⟩

/-- A source that cannot be read changes nothing that is kept. -/
theorem parse_unreadable {e : SyntaxError} (h : Program.parse source = .error e) :
    (Cache.parse digest cache name source).2 = cache := by
  unfold Cache.parse
  split
  · rfl
  · rw [h]

/-- A request is answered as if nothing were kept, and the cache stays sound. -/
theorem Sound.answer (hsound : Sound digest known cache) (hdistinct : Distinguishes digest known)
    {request : Request} (hknown : ∀ pair ∈ request.presents?, pair ∈ known) :
    (Cache.answer digest cache request).1 = request.fresh ∧
      Sound digest known (Cache.answer digest cache request).2 := by
  cases request with
  | convert o name source =>
    obtain ⟨hparsed, hkept⟩ := hsound.parse hdistinct (hknown (name, source) rfl)
    refine ⟨?_, hkept⟩
    change Answer.document (Document.ofParsed o (Cache.parse digest cache name source).1) = _
    rw [hparsed]
    rfl
  | handOut o name source =>
    obtain ⟨hparsed, hkept⟩ := hsound.parse hdistinct (hknown (name, source) rfl)
    refine ⟨?_, hkept⟩
    change Answer.text ((Document.ofParsed o (Cache.parse digest cache name source).1).map
      fun d => (d.text o source, d.diagnostics)) = _
    rw [hparsed]
    rfl
  | forget name => exact ⟨rfl, hsound.forget name⟩

theorem run_cons (request : Request) (rest : List Request) :
    run digest cache (request :: rest) =
      ((answer digest cache request).1 :: (run digest (answer digest cache request).2 rest).1,
        (run digest (answer digest cache request).2 rest).2) := rfl

/-- All requests of a run are answered as if nothing were kept. -/
theorem Sound.run {requests : List Request} (hsound : Sound digest known cache)
    (hdistinct : Distinguishes digest known)
    (hknown : ∀ request ∈ requests, ∀ pair ∈ request.presents?, pair ∈ known) :
    (Cache.run digest cache requests).1 = requests.map Request.fresh := by
  induction requests generalizing cache with
  | nil => rfl
  | cons request rest ih =>
    obtain ⟨hanswer, hkept⟩ := hsound.answer hdistinct (hknown request List.mem_cons_self)
    have hrest := ih hkept fun other hother => hknown other (List.mem_cons_of_mem request hother)
    rw [run_cons, hanswer, hrest, List.map_cons]

theorem run_append_snd (before : List Request) (request : Request) :
    (run digest cache (before ++ [request])).2 =
      (answer digest (run digest cache before).2 request).2 := by
  induction before generalizing cache with
  | nil => rfl
  | cons other before ih => rw [List.cons_append, run_cons, run_cons, ih]

theorem answer_unreadable {request : Request} {e : SyntaxError}
    (hpresents : request.presents? = some (name, source))
    (h : Program.parse source = .error e) : (answer digest cache request).2 = cache := by
  cases request with
  | convert o name source =>
    cases hpresents
    exact parse_unreadable h
  | handOut o name source =>
    cases hpresents
    exact parse_unreadable h
  | forget name => cases hpresents

end

/-- Where no two sources presented under one name have the same digest, every request of a run is
answered as if nothing were kept, and a source that cannot be read leaves all entries as they
are. -/
theorem run_eq_map_fresh (digest : String → UInt64) (requests : List Request)
    (hdistinct : Distinguishes digest (presented requests)) :
    (run digest .empty requests).1 = requests.map Request.fresh ∧
      ∀ before request after name source e, requests = before ++ request :: after →
        request.presents? = some (name, source) → Program.parse source = .error e →
          (run digest .empty (before ++ [request])).2 = (run digest .empty before).2 := by
  constructor
  · apply sound_empty.run hdistinct
    intro request hrequest pair hpair
    exact List.mem_filterMap.mpr ⟨request, hrequest, hpair⟩
  · intro before request after name source e _ hpresents hunreadable
    rw [run_append_snd, answer_unreadable hpresents hunreadable]

/-- One name with two sources, of which the second comes twice and one that cannot be read comes in
between. -/
def editedTwice : List Request :=
  [.convert {} "card" "\x7b\x7ba\x7d\x7d", .handOut {} "card" "\x7b\x7bb\x7d\x7d",
    .convert {} "card" "\x7b\x7b#if a\x7d\x7d", .convert {} "card" "\x7b\x7bb\x7d\x7d",
    .forget "card", .handOut { sourceComment := false } "card" "\x7b\x7b\"a\"\x7d\x7d"]

theorem run_editedTwice :
    Distinguishes Text.Digest.ofText (presented editedTwice) ∧
      (run Text.Digest.ofText .empty editedTwice).1 = editedTwice.map Request.fresh ∧
      (run Text.Digest.ofText .empty (editedTwice.take 3)).2 =
        (run Text.Digest.ofText .empty (editedTwice.take 2)).2 := by
  have hdistinct : Distinguishes Text.Digest.ofText (presented editedTwice) := by decide +kernel
  have hrun := run_eq_map_fresh Text.Digest.ofText editedTwice hdistinct
  have hbroken : (Program.parse "\x7b\x7b#if a\x7d\x7d").toOption.isNone = true := by decide +kernel
  refine ⟨hdistinct, hrun.1, ?_⟩
  cases hread : Program.parse "\x7b\x7b#if a\x7d\x7d" with
  | ok program =>
    rw [hread] at hbroken
    cases hbroken
  | error e => exact hrun.2 (editedTwice.take 2) _ (editedTwice.drop 3) _ _ e rfl rfl hread

end Stencil.Cache
