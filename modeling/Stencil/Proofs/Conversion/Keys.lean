import Stencil.Proofs.Conversion.Binding
import Stencil.Proofs.Conversion.Refusals
import Stencil.Proofs.Handlebars.RoundTrip
import Stencil.Proofs.Handlebars.Spelling

/-!
# Loops that provide keys

The header of a loop is written when its body has been converted, and tells
whether the loop runs over keys and values or over values alone. The body decides
by resolving a `@key` in the scope of the loop. Where that happens can be read
off the statements of the body: not every expression is resolved, and not every
block inside the loop leaves its statements in the same scope.
-/

namespace Stencil.Conversion

open Handlebars (Path Expr Arguments Statement Program Heading outlineOf outlineOfInverse)
open Django (Piece)

def IsLookup (helper : Path) (args : Arguments) (program : Program) : Prop :=
  helper.spelling = "with" ∧ (lookup? args program.blockParams).isSome = true

/-- The reference stands in the statement where it is resolved in the scope of the statement
itself. -/
inductive Resolves (o : Options) (path : Path) : Statement → Prop
  | value {args : Arguments} {escaped : Bool} (hicon : path.spelling ≠ o.iconHelper) :
      Resolves o path (.mustache (.path path) args escaped)
  | icon {helper : Path} {args : Arguments} {escaped : Bool}
      (hicon : helper.spelling = o.iconHelper) (hpath : .path path ∈ args.params) :
      Resolves o path (.mustache (.path helper) args escaped)
  | test {helper : Path} {args : Arguments} {program : Program} {inverse : Option Program}
      (hhelper : helper.spelling = "if" ∨ helper.spelling = "unless")
      (hpath : args.params[0]? = some (.path path)) :
      Resolves o path (.block helper args program inverse)
  | operand {helper callee : Path} {args : Arguments} {program : Program}
      {inverse : Option Program} {params : List Expr} {hash : List (String × Expr)}
      (hhelper : helper.spelling = "if" ∨ helper.spelling = "unless")
      (hcall : args.params[0]? = some (.call callee params hash))
      (hcallee : callee.spelling = "condition") (hpath : .path path ∈ params) :
      Resolves o path (.block helper args program inverse)
  | compared {helper : Path} {args : Arguments} {program : Program} {inverse : Option Program}
      (hhelper : helper.spelling = "eq" ∨ helper.spelling = "is")
      (hpath : args.params[0]? = some (.path path)) :
      Resolves o path (.block helper args program inverse)
  | collection {helper : Path} {args : Arguments} {program : Program} {inverse : Option Program}
      (hhelper : helper.spelling = "each") (hpath : args.params[0]? = some (.path path)) :
      Resolves o path (.block helper args program inverse)
  | lookup {helper : Path} {args : Arguments} {program : Program} {inverse : Option Program}
      {collection key : Expr} {name : String} (hhelper : helper.spelling = "with")
      (hshape : lookup? args program.blockParams = some (collection, key, name))
      (hpath : collection = .path path ∨ key = .path path) :
      Resolves o path (.block helper args program inverse)
  | partialName {callee : Path} {first : Expr} {rest : List Expr} {hash : List (String × Expr)}
      {args : Arguments} (hcallee : callee.spelling = "lookup") :
      Resolves o path (.embed (.call callee (first :: .path path :: rest) hash) args)
  | partialContext {name : Expr} {args : Arguments}
      (hpath : args.params.head? = some (.path path)) : Resolves o path (.embed name args)
  | partialBinding {name : Expr} {args : Arguments} {key : String}
      (hpath : (key, .path path) ∈ args.hash) : Resolves o path (.embed name args)
  | program {helper : Path} {args : Arguments} {program : Program} {inverse : Option Program}
      {s : Statement} (hloop : helper.spelling ≠ "each") (hlookup : ¬ IsLookup helper args program)
      (hs : s ∈ program.body) (h : Resolves o path s) :
      Resolves o path (.block helper args program inverse)
  | inverse {helper : Path} {args : Arguments} {program other : Program} {s : Statement}
      (hlookup : ¬ IsLookup helper args program) (hs : s ∈ other.body) (h : Resolves o path s) :
      Resolves o path (.block helper args program (some other))

section
variable {o : Options} {path : Path} {helper : Path} {args : Arguments} {program : Program}
variable {inverse : Option Program}

theorem Opening.of?_eq_none_iff :
    Opening.of? helper args program = none ↔
      helper.spelling ≠ "each" ∧ ¬ IsLookup helper args program := by
  unfold of? IsLookup
  by_cases heach : helper.spelling = "each"
  · simp [heach]
  · by_cases hwith : helper.spelling = "with"
    · simp [hwith, Option.isSome_iff_ne_none]
    · simp [heach, hwith]

/-- The inverse of a lookup is dropped, and no other one. -/
theorem Opening.any_dropsInverse :
    (Opening.of? helper args program).any Opening.dropsInverse = true ↔
      IsLookup helper args program := by
  unfold of? IsLookup
  by_cases heach : helper.spelling = "each"
  · simp [heach, dropsInverse]
  · by_cases hwith : helper.spelling = "with"
    · cases hshape : lookup? args program.blockParams <;> simp [hwith, dropsInverse]
    · simp [heach, hwith]

end

section
variable {path : Path} (hpath : loopVariable? path = none)
include hpath

theorem mem_referencePaths {other : Path} : path ∈ referencePaths other ↔ other = path := by
  unfold referencePaths
  constructor
  · intro h
    split at h
    · cases h
    · exact (List.mem_singleton.mp h).symm
  · rintro rfl
    simp [hpath]

theorem mem_argumentPaths {e : Expr} : path ∈ argumentPaths e ↔ e = .path path := by
  cases e with
  | path other => simp [argumentPaths, mem_referencePaths hpath]
  | _ => simp [argumentPaths]

theorem mem_argumentPaths? {e : Option Expr} :
    path ∈ argumentPaths? e ↔ e = some (.path path) := by
  cases e with
  | none => simp [argumentPaths?]
  | some e => simp [argumentPaths?, mem_argumentPaths hpath]

theorem mem_flatMap_argumentPaths {params : List Expr} :
    path ∈ params.flatMap argumentPaths ↔ .path path ∈ params := by
  simp [List.mem_flatMap, mem_argumentPaths hpath]

theorem mem_conditionPaths {e : Option Expr} :
    path ∈ conditionPaths e ↔ e = some (.path path) ∨
      ∃ callee params hash, e = some (.call callee params hash) ∧
        callee.spelling = "condition" ∧ .path path ∈ params := by
  cases e with
  | none => simp [conditionPaths]
  | some e =>
    cases e with
    | path other => simp [conditionPaths, mem_referencePaths hpath]
    | call callee params hash =>
      unfold conditionPaths
      by_cases hcallee : callee.spelling = "condition"
      · simp only [hcallee, if_true, mem_flatMap_argumentPaths hpath]
        simp [hcallee]
      · simp [hcallee]
    | _ => simp [conditionPaths]

theorem mem_mustachePaths {o : Options} {head : Expr} {args : Arguments} (escaped : Bool) :
    path ∈ mustachePaths o head args ↔ Resolves o path (.mustache head args escaped) := by
  constructor
  · intro h
    cases head with
    | path other =>
      simp only [mustachePaths] at h
      split at h
      · next hicon => exact .icon hicon ((mem_flatMap_argumentPaths hpath).mp h)
      · next hicon =>
        obtain rfl := (mem_referencePaths hpath).mp h
        exact .value hicon
    | _ => cases h
  · intro h
    cases h with
    | value hicon =>
      rw [mustachePaths, if_neg hicon]
      exact (mem_referencePaths hpath).mpr rfl
    | icon hicon hmem =>
      rw [mustachePaths, if_pos hicon]
      exact (mem_flatMap_argumentPaths hpath).mpr hmem

theorem mem_inclusionNamePaths {name : Expr} :
    path ∈ inclusionNamePaths name ↔ ∃ callee first rest hash,
      name = .call callee (first :: .path path :: rest) hash ∧ callee.spelling = "lookup" := by
  cases name with
  | call callee params hash =>
    by_cases hcallee : callee.spelling = "lookup"
    · simp only [inclusionNamePaths, hcallee, if_true]
      rcases params with _ | ⟨first, _ | ⟨second, rest⟩⟩
      · simp
      · simp
      · cases second with
        | path other => simp [hcallee, mem_referencePaths hpath]
        | _ => simp
    · simp [inclusionNamePaths, hcallee]
  | _ => simp [inclusionNamePaths]

theorem mem_inclusionPaths {o : Options} {name : Expr} {args : Arguments} :
    path ∈ inclusionPaths name args ↔ Resolves o path (.embed name args) := by
  rw [inclusionPaths, List.mem_append, List.mem_append, mem_inclusionNamePaths hpath,
    mem_argumentPaths? hpath, List.mem_flatMap]
  simp only [mem_argumentPaths hpath]
  constructor
  · rintro ((⟨callee, first, rest, hash, rfl, hcallee⟩ | hcontext) | ⟨⟨key, e⟩, hmem, rfl⟩)
    · exact .partialName hcallee
    · exact .partialContext hcontext
    · exact .partialBinding hmem
  · intro h
    cases h with
    | partialName hcallee => exact .inl (.inl ⟨_, _, _, _, rfl, hcallee⟩)
    | partialContext hcontext => exact .inl (.inr hcontext)
    | partialBinding hmem => exact .inr ⟨_, hmem, rfl⟩

/-- The references in the head of a block are resolved in the scope of the block. -/
theorem resolves_of_mem_blockPaths {o : Options} {helper : Path} {args : Arguments}
    {program : Program} (h : path ∈ blockPaths helper args program.blockParams)
    (inverse : Option Program) : Resolves o path (.block helper args program inverse) := by
  unfold blockPaths at h
  split at h
  · next hhelper =>
    have hhelper : helper.spelling = "if" ∨ helper.spelling = "unless" := by simpa using hhelper
    obtain htest | ⟨callee, params, hash, hcall, hcallee, hmem⟩ := (mem_conditionPaths hpath).mp h
    · exact .test hhelper htest
    · exact .operand hhelper hcall hcallee hmem
  · split at h
    · next hhelper =>
      have hfirst := (mem_argumentPaths? hpath).mp h
      by_cases heach : helper.spelling = "each"
      · exact .collection heach hfirst
      · exact .compared (by simpa [heach] using hhelper) hfirst
    · split at h
      · next hwith =>
        split at h
        · next collection key name hshape =>
          rw [List.mem_append, mem_argumentPaths hpath, mem_argumentPaths hpath] at h
          exact .lookup hwith hshape h
        · cases h
      · cases h

end

section
variable {o : Options} {path : Path} {found : Site} {opening : Option Opening}

theorem Site.within_eq_here (h : found.within opening = .here path) :
    opening = none ∧ found = .here path := by
  obtain ⟨trail, other⟩ := found
  simp only [within, here, Site.mk.injEq, List.append_eq_nil_iff, Option.toList_eq_nil_iff] at h
  obtain ⟨⟨rfl, hopening⟩, rfl⟩ := h
  exact ⟨hopening, rfl⟩

theorem Site.here_mem_map {paths : List Path} :
    Site.here path ∈ paths.map .here ↔ path ∈ paths := by
  simp [here]

theorem mem_sitesOfBody {site : Site} {body : List Statement} :
    site ∈ sitesOfBody o body ↔ ∃ s ∈ body, site ∈ sites o s := by
  induction body with
  | nil => simp [sitesOfBody]
  | cons s body ih => simp [sitesOfBody, ih]

end

mutual

/-- What is resolved in the scope of a statement stands where that is done. -/
theorem resolves_of_mem_sites (o : Options) {path : Path} (hpath : loopVariable? path = none)
    (s : Statement) (h : Site.here path ∈ sites o s) : Resolves o path s := by
  cases s with
  | content text => cases h
  | comment text => cases h
  | mustache head args escaped =>
    rw [sites, Site.here_mem_map] at h
    exact (mem_mustachePaths hpath escaped).mp h
  | embed name args =>
    rw [sites, Site.here_mem_map] at h
    exact (mem_inclusionPaths hpath).mp h
  | block helper args program inverse =>
    obtain ⟨body, blockParams⟩ := program
    rw [sites, List.mem_append, List.mem_append, Site.here_mem_map] at h
    obtain (h | h) | h := h
    · exact resolves_of_mem_blockPaths hpath h inverse
    · obtain ⟨found, hfound, hhere⟩ := List.mem_map.mp h
      obtain ⟨hopening, rfl⟩ := Site.within_eq_here hhere
      obtain ⟨hloop, hlookup⟩ := Opening.of?_eq_none_iff.mp hopening
      obtain ⟨s, hs, hresolves⟩ := exists_resolves_of_mem_sitesOfBody o hpath body hfound
      exact .program hloop hlookup hs hresolves
    · split at h
      · cases h
      · next hdrops =>
        have hlookup := mt Opening.any_dropsInverse.mpr hdrops
        cases inverse with
        | none => cases h
        | some other =>
          obtain ⟨body', blockParams'⟩ := other
          obtain ⟨s, hs, hresolves⟩ := exists_resolves_of_mem_sitesOfBody o hpath body' h
          exact .inverse hlookup hs hresolves

theorem exists_resolves_of_mem_sitesOfBody (o : Options) {path : Path}
    (hpath : loopVariable? path = none) (body : List Statement)
    (h : Site.here path ∈ sitesOfBody o body) : ∃ s ∈ body, Resolves o path s := by
  cases body with
  | nil => cases h
  | cons s rest =>
    rw [sitesOfBody, List.mem_append] at h
    obtain h | h := h
    · exact ⟨s, List.mem_cons_self, resolves_of_mem_sites o hpath s h⟩
    · obtain ⟨other, hother, hresolves⟩ := exists_resolves_of_mem_sitesOfBody o hpath rest h
      exact ⟨other, List.mem_cons_of_mem s hother, hresolves⟩

end

section
variable {o : Options} {path : Path}

theorem here_mem_sites_of_head {helper : Path} {args : Arguments} {program : Program}
    (h : path ∈ blockPaths helper args program.blockParams) (inverse : Option Program) :
    Site.here path ∈ sites o (.block helper args program inverse) := by
  obtain ⟨body, blockParams⟩ := program
  rw [sites, List.mem_append, List.mem_append]
  exact .inl (.inl (Site.here_mem_map.mpr h))

/-- A reference has a site without blocks around it where it is resolved in the scope of its
statement, and only there. -/
theorem here_mem_sites_iff (hpath : loopVariable? path = none) {s : Statement} :
    Site.here path ∈ sites o s ↔ Resolves o path s := by
  refine ⟨resolves_of_mem_sites o hpath s, fun h => ?_⟩
  induction h with
  | @value _ escaped hicon =>
    rw [sites, Site.here_mem_map, mem_mustachePaths hpath escaped]
    exact .value hicon
  | @icon _ _ escaped hicon hmem =>
    rw [sites, Site.here_mem_map, mem_mustachePaths hpath escaped]
    exact .icon hicon hmem
  | partialName hcallee =>
    rw [sites, Site.here_mem_map, mem_inclusionPaths (o := o) hpath]
    exact .partialName hcallee
  | partialContext hcontext =>
    rw [sites, Site.here_mem_map, mem_inclusionPaths (o := o) hpath]
    exact .partialContext hcontext
  | partialBinding hmem =>
    rw [sites, Site.here_mem_map, mem_inclusionPaths (o := o) hpath]
    exact .partialBinding hmem
  | @test _ _ _ inverse hhelper htest =>
    apply here_mem_sites_of_head
    rw [blockPaths_condition hhelper, mem_conditionPaths hpath]
    exact .inl htest
  | operand hhelper hcall hcallee hmem =>
    apply here_mem_sites_of_head
    rw [blockPaths_condition hhelper, mem_conditionPaths hpath]
    exact .inr ⟨_, _, _, hcall, hcallee, hmem⟩
  | compared hhelper hfirst =>
    apply here_mem_sites_of_head
    rw [blockPaths_argument (hhelper.imp_right .inl), mem_argumentPaths? hpath]
    exact hfirst
  | collection hhelper hfirst =>
    apply here_mem_sites_of_head
    rw [blockPaths_argument (.inr (.inr hhelper)), mem_argumentPaths? hpath]
    exact hfirst
  | lookup hhelper hshape hmem =>
    apply here_mem_sites_of_head
    have hpaths : blockPaths _ _ _ = _ := blockPaths_lookup hhelper hshape
    rw [hpaths, List.mem_append, mem_argumentPaths hpath, mem_argumentPaths hpath]
    exact hmem
  | @program helper args program inverse s hloop hlookup hs _ ih =>
    obtain ⟨body, blockParams⟩ := program
    rw [sites, List.mem_append, List.mem_append]
    refine .inl (.inr (List.mem_map.mpr ⟨_, mem_sitesOfBody.mpr ⟨s, hs, ih⟩, ?_⟩))
    rw [Opening.of?_eq_none_iff.mpr ⟨hloop, hlookup⟩, Site.within, Option.toList_none,
      List.append_nil]
  | @inverse helper args program other s hlookup hs _ ih =>
    obtain ⟨body, blockParams⟩ := program
    obtain ⟨body', blockParams'⟩ := other
    rw [sites, List.mem_append, if_neg (mt Opening.any_dropsInverse.mp hlookup)]
    exact .inr (mem_sitesOfBody.mpr ⟨s, hs, ih⟩)

end

section
variable {path : Path}

theorem spelled_of_mem_referencePaths {other : Path} (h : path ∈ referencePaths other)
    (hother : other.Spelled) : path.Spelled := by
  unfold referencePaths at h
  split at h
  · cases h
  · rwa [List.mem_singleton.mp h]

theorem spelled_of_mem_argumentPaths {e : Expr} (h : path ∈ argumentPaths e)
    (he : e.All Expr.Spelled) : path.Spelled := by
  cases e with
  | path other =>
    rw [Expr.All] at he
    exact spelled_of_mem_referencePaths h he
  | _ => cases h

theorem spelled_of_mem_flatMap {params : List Expr} (h : path ∈ params.flatMap argumentPaths)
    (hparams : Expr.AllParams Expr.Spelled params) : path.Spelled := by
  obtain ⟨e, he, hmem⟩ := List.mem_flatMap.mp h
  exact spelled_of_mem_argumentPaths hmem (Expr.allParams_iff.mp hparams e he)

theorem spelled_of_mem_argumentPaths? {e : Option Expr} (h : path ∈ argumentPaths? e)
    (he : ∀ found ∈ e, found.All Expr.Spelled) : path.Spelled := by
  cases e with
  | none => cases h
  | some e => exact spelled_of_mem_argumentPaths h (he e rfl)

theorem spelled_of_mem_mustachePaths {o : Options} {head : Expr} {args : Arguments}
    (h : path ∈ mustachePaths o head args) (hhead : head.All Expr.Spelled)
    (hargs : args.All Expr.Spelled) : path.Spelled := by
  cases head with
  | path other =>
    rw [Expr.All] at hhead
    simp only [mustachePaths] at h
    split at h
    · exact spelled_of_mem_flatMap h hargs.1
    · exact spelled_of_mem_referencePaths h hhead
  | _ => cases h

theorem spelled_of_mem_inclusionNamePaths {name : Expr} (h : path ∈ inclusionNamePaths name)
    (hname : name.All Expr.Spelled) : path.Spelled := by
  cases name with
  | call callee params hash =>
    rw [Expr.All] at hname
    simp only [inclusionNamePaths] at h
    split at h
    · split at h
      · next first other rest =>
        have hother := Expr.allParams_iff.mp hname.2.1 (.path other)
          (List.mem_cons_of_mem first List.mem_cons_self)
        rw [Expr.All] at hother
        exact spelled_of_mem_referencePaths h hother
      · cases h
    · cases h
  | _ => cases h

theorem spelled_of_mem_conditionPaths {e : Option Expr} (h : path ∈ conditionPaths e)
    (he : ∀ found ∈ e, found.All Expr.Spelled) : path.Spelled := by
  cases e with
  | none => cases h
  | some e =>
    have he := he e rfl
    cases e with
    | path other =>
      rw [Expr.All] at he
      exact spelled_of_mem_referencePaths h he
    | call callee params hash =>
      rw [Expr.All] at he
      simp only [conditionPaths] at h
      split at h
      · exact spelled_of_mem_flatMap h he.2.1
      · cases h
    | _ => cases h

/-- The two arguments of a lookup. -/
theorem spelled_of_lookup? {args : Arguments} {blockParams : List String} {collection key : Expr}
    {name : String} (h : lookup? args blockParams = some (collection, key, name))
    (hargs : args.All Expr.Spelled) :
    collection.All Expr.Spelled ∧ key.All Expr.Spelled := by
  unfold lookup? at h
  split at h
  · next hparams =>
    have hcall := Expr.allParams_iff.mp hargs.1 _ (hparams ▸ List.mem_cons_self)
    split at h
    · cases h
      rw [Expr.All] at hcall
      exact ⟨hcall.2.1.1, hcall.2.1.2.1⟩
    · cases h
  · cases h

theorem spelled_of_mem_inclusionPaths {name : Expr} {args : Arguments}
    (h : path ∈ inclusionPaths name args) (hname : name.All Expr.Spelled)
    (hargs : args.All Expr.Spelled) : path.Spelled := by
  rw [inclusionPaths, List.mem_append, List.mem_append] at h
  obtain (h | h) | h := h
  · exact spelled_of_mem_inclusionNamePaths h hname
  · exact spelled_of_mem_argumentPaths? h fun e he =>
      Expr.allParams_iff.mp hargs.1 e (List.mem_of_mem_head? he)
  · obtain ⟨pair, hpair, hmem⟩ := List.mem_flatMap.mp h
    exact spelled_of_mem_argumentPaths hmem (Expr.allHash_iff.mp hargs.2 pair hpair)

theorem spelled_of_mem_blockPaths {helper : Path} {args : Arguments} {blockParams : List String}
    (h : path ∈ blockPaths helper args blockParams) (hargs : args.All Expr.Spelled) :
    path.Spelled := by
  have hfirst : ∀ found ∈ args.params[0]?, found.All Expr.Spelled := fun found hfound =>
    Expr.allParams_iff.mp hargs.1 found (List.mem_of_getElem? hfound)
  unfold blockPaths at h
  split at h
  · exact spelled_of_mem_conditionPaths h hfirst
  · split at h
    · exact spelled_of_mem_argumentPaths? h hfirst
    · split at h
      · split at h
        · next collection key name hshape =>
          obtain ⟨hcollection, hkey⟩ := spelled_of_lookup? hshape hargs
          rcases List.mem_append.mp h with h | h
          · exact spelled_of_mem_argumentPaths h hcollection
          · exact spelled_of_mem_argumentPaths h hkey
        · cases h
      · cases h

end

mutual

/-- The references that a statement resolves are what their spellings say, if those in its
headings are. -/
theorem spelled_of_mem_sites (o : Options) (s : Statement)
    (h : ∀ heading ∈ s.outline, heading.Spelled) : ∀ site ∈ sites o s, site.path.Spelled := by
  intro site hsite
  cases s with
  | content text => cases hsite
  | comment text => cases hsite
  | mustache head args escaped =>
    rw [sites] at hsite
    obtain ⟨path, hpath, rfl⟩ := List.mem_map.mp hsite
    obtain ⟨hhead, hargs⟩ := h _ List.mem_cons_self
    exact spelled_of_mem_mustachePaths hpath hhead hargs
  | embed name args =>
    rw [sites] at hsite
    obtain ⟨path, hpath, rfl⟩ := List.mem_map.mp hsite
    obtain ⟨hname, hargs⟩ := h _ List.mem_cons_self
    exact spelled_of_mem_inclusionPaths hpath hname hargs
  | block helper args program inverse =>
    obtain ⟨body, blockParams⟩ := program
    rw [Statement.outline, List.forall_mem_cons, List.forall_mem_append] at h
    obtain ⟨hargs, hbody, hinverse⟩ := h
    rw [sites, List.mem_append, List.mem_append] at hsite
    obtain (hsite | hsite) | hsite := hsite
    · obtain ⟨path, hpath, rfl⟩ := List.mem_map.mp hsite
      exact spelled_of_mem_blockPaths hpath hargs
    · obtain ⟨found, hfound, rfl⟩ := List.mem_map.mp hsite
      exact spelled_of_mem_sitesOfBody o body hbody found hfound
    · split at hsite
      · cases hsite
      · exact spelled_of_mem_sitesOfInverse o inverse hinverse site hsite

theorem spelled_of_mem_sitesOfBody (o : Options) (body : List Statement)
    (h : ∀ heading ∈ outlineOf body, heading.Spelled) :
    ∀ site ∈ sitesOfBody o body, site.path.Spelled := by
  intro site hsite
  cases body with
  | nil => cases hsite
  | cons s rest =>
    rw [outlineOf, List.forall_mem_append] at h
    rw [sitesOfBody, List.mem_append] at hsite
    exact hsite.elim (spelled_of_mem_sites o s h.1 site)
      (spelled_of_mem_sitesOfBody o rest h.2 site)

theorem spelled_of_mem_sitesOfInverse (o : Options) (inverse : Option Program)
    (h : ∀ heading ∈ outlineOfInverse inverse, heading.Spelled) :
    ∀ site ∈ sitesOfInverse o inverse, site.path.Spelled := by
  intro site hsite
  cases inverse with
  | none => cases hsite
  | some program =>
    obtain ⟨body, blockParams⟩ := program
    exact spelled_of_mem_sitesOfBody o body h site hsite

end

/-- A body asks the loop around it for a key where one of its statements resolves `@key`. No
other reference is spelled so, and this one leaves no scope. -/
theorem asksKey_iff {o : Options} {body : List Statement}
    (h : ∀ heading ∈ outlineOf body, heading.Spelled) :
    asksKey o body = true ↔ ∃ s ∈ body, Resolves o (.parse "@key") s := by
  have hpath : loopVariable? (.parse "@key") = none := by decide
  simp only [← here_mem_sites_iff hpath, ← mem_sitesOfBody]
  rw [asksKey, List.any_eq_true]
  constructor
  · rintro ⟨⟨trail, path⟩, hsite, hasks⟩
    simp only [Path.isKey, Bool.and_eq_true, decide_eq_true_eq] at hasks
    obtain ⟨⟨hkey, -⟩, hdepth⟩ := hasks
    obtain rfl : path = .parse "@key" :=
      (spelled_of_mem_sitesOfBody o body h _ hsite).eq_parse hkey
    obtain rfl : trail = [] := List.eq_nil_of_length_eq_zero hdepth.symm
    exact hsite
  · intro hsite
    exact ⟨_, hsite, by decide⟩

mutual

/-- A statement that is visited has its headings from the source. -/
theorem outline_subset_of_mem_visits (scopes : List Scope) (s : Statement) {visit : Visit}
    (h : visit ∈ visits scopes s) : visit.statement.outline ⊆ s.outline := by
  cases s with
  | block helper args program inverse =>
    obtain ⟨body, blockParams⟩ := program
    rw [visits, List.mem_cons, List.mem_append] at h
    obtain rfl | h | h := h
    · exact List.Subset.refl _
    · rw [Statement.outline]
      exact List.subset_cons_of_subset _ (List.subset_append_of_subset_left _
        (outline_subset_of_mem_visitsOfBody _ body h))
    · split at h
      · cases h
      · rw [Statement.outline]
        exact List.subset_cons_of_subset _ (List.subset_append_of_subset_right _
          (outline_subset_of_mem_visitsOfInverse scopes inverse h))
  | _ =>
    rw [visits, List.mem_singleton] at h
    rw [h]
    exact List.Subset.refl _

theorem outline_subset_of_mem_visitsOfBody (scopes : List Scope) (body : List Statement)
    {visit : Visit} (h : visit ∈ visitsOfBody scopes body) :
    visit.statement.outline ⊆ outlineOf body := by
  cases body with
  | nil => cases h
  | cons s rest =>
    rw [visitsOfBody, List.mem_append] at h
    rw [outlineOf]
    obtain h | h := h
    · exact List.subset_append_of_subset_left _ (outline_subset_of_mem_visits scopes s h)
    · exact List.subset_append_of_subset_right _
        (outline_subset_of_mem_visitsOfBody scopes rest h)

theorem outline_subset_of_mem_visitsOfInverse (scopes : List Scope) (inverse : Option Program)
    {visit : Visit} (h : visit ∈ visitsOfInverse scopes inverse) :
    visit.statement.outline ⊆ outlineOfInverse inverse := by
  cases inverse with
  | none => cases h
  | some program =>
    obtain ⟨body, blockParams⟩ := program
    exact outline_subset_of_mem_visitsOfBody scopes body h

end

/-- The statement has been converted in its scopes, and what it wrote stands in one piece. -/
def Visit.Ran (o : Options) (pieces : List Piece) (visit : Visit) : Prop :=
  ∃ chained log, Conversion.statement o visit.statement visit.scopes chained = ⟨log, .ok ()⟩ ∧
    log.pieces <:+: pieces

theorem Visit.Ran.mono {o : Options} {pieces more : List Piece} {visit : Visit}
    (h : visit.Ran o pieces) (hmore : pieces <:+: more) : visit.Ran o more := by
  obtain ⟨chained, log, hrun, hwritten⟩ := h
  exact ⟨chained, log, hrun, hwritten.trans hmore⟩

mutual

/-- In a conversion that is not refused, the statements that are visited are converted. -/
theorem visits_ran (o : Options) (s : Statement) {scopes : List Scope} {chained : Bool} {log : Log}
    (h : statement o s scopes chained = ⟨log, .ok ()⟩) :
    ∀ visit ∈ visits scopes s, visit.Ran o log.pieces := by
  intro visit hvisit
  cases s with
  | block helper args program inverse =>
    obtain ⟨body, blockParams⟩ := program
    rw [visits, List.mem_cons, List.mem_append] at hvisit
    obtain rfl | hvisit := hvisit
    · exact ⟨chained, log, h, List.infix_rfl⟩
    cases (statement_block_ran h).blockRan with
    | @enclosed main rest _ closed hmain hother _ hwritten =>
      obtain hvisit | hvisit := hvisit
      · rw [closed, inside] at hvisit
        exact (visitsOfBody_ran o body hmain visit hvisit).mono
          ((List.prefix_append _ _).isInfix.trans hwritten)
      · split at hvisit
        · cases hvisit
        · exact (visitsOfInverse_ran o inverse hother visit hvisit).mono
            ((List.suffix_append _ _).isInfix.trans hwritten)
    | @opened opening main rest _ opens hmain _ hother _ hwritten =>
      have hparts : main.pieces ++ rest.pieces <:+: log.pieces :=
        (List.suffix_cons _ _).isInfix.trans hwritten
      obtain hvisit | hvisit := hvisit
      · rw [opens, inside] at hvisit
        exact (visitsOfBody_ran o body hmain visit hvisit).mono
          ((List.prefix_append _ _).isInfix.trans hparts)
      · split at hvisit
        · cases hvisit
        · next hlookup =>
          have hdrops : opening.dropsInverse = false := by
            have hany : ¬ (Opening.of? helper args ⟨body, blockParams⟩).any
                Opening.dropsInverse = true := mt Opening.any_dropsInverse.mp hlookup
            simpa [opens] using hany
          exact (visitsOfInverse_ran o inverse (hother hdrops) visit hvisit).mono
            ((List.suffix_append _ _).isInfix.trans hparts)
  | _ =>
    rw [visits, List.mem_singleton] at hvisit
    rw [hvisit]
    exact ⟨chained, log, h, List.infix_rfl⟩

theorem visitsOfBody_ran (o : Options) (body : List Statement) {scopes : List Scope}
    {chained : Bool} {log : Log} (h : statements o body scopes chained = ⟨log, .ok ()⟩) :
    ∀ visit ∈ visitsOfBody scopes body, visit.Ran o log.pieces := by
  intro visit hvisit
  cases body with
  | nil => cases hvisit
  | cons s rest =>
    obtain ⟨first, second, hfirst, hsecond, rfl⟩ := statements_cons_eq_ok h
    rw [Log.append_pieces]
    rw [visitsOfBody, List.mem_append] at hvisit
    obtain hvisit | hvisit := hvisit
    · exact (visits_ran o s hfirst visit hvisit).mono (List.prefix_append _ _).isInfix
    · exact (visitsOfBody_ran o rest hsecond visit hvisit).mono (List.suffix_append _ _).isInfix

theorem visitsOfInverse_ran (o : Options) (inverse : Option Program) {scopes : List Scope}
    {log : Log} (h : InverseRan o scopes inverse log) :
    ∀ visit ∈ visitsOfInverse scopes inverse, visit.Ran o log.pieces := by
  intro visit hvisit
  cases inverse with
  | none => cases hvisit
  | some program =>
    obtain ⟨body, blockParams⟩ := program
    cases h with
    | some main marks written =>
      exact (visitsOfBody_ran o body main visit hvisit).mono written

end

/-- The loop has names for keys and values, or its body resolves a `@key` in its scope and the
loop does not name more than the value. -/
def ProvidesKeys (o : Options) (program : Program) : Prop :=
  program.blockParams.length = 2 ∨
    program.blockParams.length ≤ 1 ∧ ∃ s ∈ program.body, Resolves o (.parse "@key") s

/-- A loop without names or with a single one has no name for its key. -/
theorem loopNames_key? (blockParams : List String) (items : String) :
    ({ names := loopNames blockParams items } : Scope).key? = none ↔ blockParams.length ≤ 1 := by
  rcases blockParams with _ | ⟨value, _ | ⟨key, rest⟩⟩ <;> simp [loopNames, Scope.key?]

/-- A loop is written as its header and the rest. -/
theorem loop_pieces {o : Options} {helper : Path} {args : Arguments} {program : Program}
    {inverse : Option Program} {scopes : List Scope} {chained : Bool} {log : Log}
    (hspelled : ∀ heading ∈ outlineOf program.body, heading.Spelled)
    (heach : helper.spelling = "each")
    (h : statement o (.block helper args program inverse) scopes chained = ⟨log, .ok ()⟩) :
    ∃ names items entries written, log.pieces = loopHeader names items entries :: written ∧
      (entries = true ↔ ProvidesKeys o program) := by
  cases statement_block_ran h with
  | @loop reading body rest items _ head main other =>
    rw [blockOf_main, branch_convert] at main
    have hreading : reading.fragments = [] := (collection_reads scopes _ _ _ head).1
    refine ⟨_, _, _, _, pieces_enclose hreading, ?_⟩
    rw [contains_marks main, Bool.or_eq_true, Bool.and_eq_true, decide_eq_true_eq,
      Option.isNone_iff_eq_none, loopNames_key?, asksKey_iff hspelled, and_comm, ProvidesKeys]
    rfl
  | chain hhelper => simp [heach] at hhelper
  | negated hhelper => simp [heach] at hhelper
  | equal hhelper => simp [heach] at hhelper
  | entry hhelper => simp [heach] at hhelper
  | kept hhelper => simp [heach] at hhelper

/-- A loop that is visited writes one header, and this runs over keys and values exactly when
the loop provides keys. -/
theorem header_forEntries_iff {source : String} {p : Program} {o : Options} {doc : Document}
    (hparse : Program.parse source = .ok p) (hdoc : Document.ofProgram o p = .ok doc)
    {scopes : List Scope} {helper : Path} {args : Arguments} {program : Program}
    {inverse : Option Program}
    (hvisit : ⟨scopes, .block helper args program inverse⟩ ∈ visitsOfBody [] p.body)
    (heach : helper.spelling = "each") :
    ∃ before header written after,
      doc.output = Django.Fragment.render (before ++ header :: (written ++ after)) ∧
      (∃ chained log, statement o (.block helper args program inverse) scopes chained =
        ⟨log, .ok ()⟩ ∧ log.pieces = header :: written) ∧
      ((∃ key value items, header = .forEntries key value items) ↔ ProvidesKeys o program) ∧
      ((∃ value items, header = .forValues value items) ↔ ¬ ProvidesKeys o program) := by
  obtain ⟨log, hrun, rfl⟩ := Document.ofProgram_eq_ok hdoc
  obtain ⟨chained, own, hown, before, after, hlog⟩ := visitsOfBody_ran o p.body hrun _ hvisit
  have hspelled : ∀ heading ∈ outlineOf program.body, heading.Spelled := by
    intro heading hheading
    apply Program.spelled_parse hparse heading
    apply outline_subset_of_mem_visitsOfBody [] p.body hvisit
    obtain ⟨body, blockParams⟩ := program
    rw [Statement.outline]
    exact List.mem_cons_of_mem _ (List.mem_append_left _ hheading)
  obtain ⟨names, items, entries, written, hwritten, hentries⟩ := loop_pieces hspelled heach hown
  refine ⟨before, _, written, after, ?_, ⟨chained, own, hown, hwritten⟩, ?_, ?_⟩
  · rw [← hlog, hwritten]
    simp
  · rw [← hentries]
    cases entries <;> simp [loopHeader]
  · rw [← hentries]
    cases entries <;> simp [loopHeader]

/-- The program of a loop that holds another loop, which shows the key of the entry around it in
case there is nothing to loop over. -/
def keyInEmpty : Program :=
  .ofBody [.block (.parse "each") { params := [.path (.parse "rows")] }
    (.ofBody []) (some (.ofBody [.mustache (.path (.parse "@key")) {} true]))]

/-- The loop that the header belongs to. -/
def itemsLoop : Statement :=
  .block (.parse "each") { params := [.path (.parse "items")] } keyInEmpty none

theorem keyInEmpty_header :
    ∃ p doc visit, Program.parse (String.ofList p.print) = .ok p ∧
      Document.ofProgram {} p = .ok doc ∧
      doc.output = "\x7b% for key, items_i in items.items %\x7d" ++
        "\x7b% for rows_i in items_i.rows %\x7d\x7b% empty %\x7d\x7b\x7b key \x7d\x7d" ++
        "\x7b% endfor %\x7d\x7b% endfor %\x7d" ∧
      visit ∈ visitsOfBody [] p.body ∧
      visit.statement = .block (.parse "each") { params := [.path (.parse "items")] } keyInEmpty
        none ∧
      ∃ before key value items written after, doc.output =
        Django.Fragment.render (before ++ .forEntries key value items :: (written ++ after)) := by
  have hnormal : (Program.ofBody [itemsLoop]).Normal := by
    simp only [itemsLoop, keyInEmpty, Program.ofBody, Program.Normal, Handlebars.AllBody,
      Handlebars.AllInverse, Statement.All, Statement.Normal, Expr.All, Expr.Normal,
      Expr.AllParams, Expr.AllHash, Arguments.Normal, Arguments.All]
    simp (disch := decide) only [Path.normal_parse]
    simp [Handlebars.Apart]
  have hexpressible : (Program.ofBody [itemsLoop]).Expressible := by
    refine ⟨rfl, ?_, by decide⟩
    simp [itemsLoop, keyInEmpty, Program.ofBody, Handlebars.AllBody, Handlebars.AllInverse,
      Statement.All, Statement.Expressible, Expr.All, Expr.Expressible, Expr.AllParams,
      Expr.AllHash, Arguments.All, Expr.isCall, Expr.CanBegin]
    decide
  have hparse := Program.parse_print_of_normal hnormal hexpressible
  have hvisit : ⟨[], itemsLoop⟩ ∈ visitsOfBody [] (Program.ofBody [itemsLoop]).body :=
    List.mem_cons_self
  have hprovides : ProvidesKeys {} keyInEmpty :=
    .inr ⟨by decide, _, List.mem_cons_self,
      .inverse (by simp [IsLookup]) List.mem_cons_self (.value (by decide))⟩
  have hdoc : Document.ofProgram {} (.ofBody [itemsLoop]) = .ok
      { output := "\x7b% for key, items_i in items.items %\x7d" ++
          "\x7b% for rows_i in items_i.rows %\x7d\x7b% empty %\x7d\x7b\x7b key \x7d\x7d" ++
          "\x7b% endfor %\x7d\x7b% endfor %\x7d"
        diagnostics := []
        conditionals := 0 } := rfl
  obtain ⟨before, header, written, after, houtput, -, hentries, -⟩ :=
    header_forEntries_iff hparse hdoc hvisit (by decide)
  obtain ⟨key, value, items, rfl⟩ := hentries.mpr hprovides
  exact ⟨_, _, _, hparse, hdoc, rfl, hvisit, rfl, before, key, value, items, written, after,
    houtput⟩

end Stencil.Conversion
