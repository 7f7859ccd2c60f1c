import Stencil.Proofs.Conversion.Sites
import Stencil.Proofs.Scope.Merge
import Stencil.Proofs.Text

/-!
# The variables that references begin with

A converted reference begins with the name of a variable, and a loop or a
lookup binds the names in its tag. Both are decided in different places: the
names of a tag only when the body is known. Here they are compared. A reference
is captured if a block that it leaves binds its name, and it dangles if no
block around it does.
-/

namespace Stencil.Conversion

open Handlebars (Path Expr Arguments Statement Program)
open Django (Piece)

def firstName (dotted : String) : String :=
  String.ofList ((Text.fields '.' dotted.toList).headD [])

theorem firstName_append (a b : String) : firstName (a ++ "." ++ b) = firstName a := by
  have hdot : (a ++ "." ++ b).toList = a.toList ++ '.' :: b.toList := by
    simp
  obtain ⟨field, more, hfields⟩ := List.exists_cons_of_ne_nil (Text.fields_ne_nil '.' a.toList)
  unfold firstName
  rw [hdot, Text.fields_append, hfields]
  rfl

theorem firstName_joined (path : Path) :
    firstName path.joined = firstName (path.parts.headD "") := by
  unfold Path.joined
  rcases path.parts with _ | ⟨first, _ | ⟨second, rest⟩⟩
  · rfl
  · rw [String.intercalate_singleton]
    rfl
  · rw [String.intercalate_cons_cons, firstName_append]
    rfl

theorem firstName_of_undotted {name : String} (h : '.' ∉ name.toList) : firstName name = name := by
  rw [firstName, Text.fields_of_not_mem h, List.headD_cons, String.ofList_toList]

theorem loopNames_ne_nil (blockParams : List String) (items : String) :
    loopNames blockParams items ≠ [] := by
  unfold loopNames
  split
  · simp
  · next h => simpa using h

theorem Opening.scope_names_ne_nil (opening : Opening) (outer : List Scope) :
    (opening.scope outer).names ≠ [] := by
  cases opening with
  | loop args program => exact loopNames_ne_nil program.blockParams _
  | entry collection key name => simp [scope]

theorem Opening.scope_replacements (opening : Opening) (outer : List Scope) :
    (opening.scope outer).replacements = none := by
  cases opening <;> rfl

theorem drop_enter (outer : List Scope) (trail : List Opening) :
    (enter outer trail).drop trail.length = outer := by
  induction trail with
  | nil => rfl
  | cons opening trail ih => simpa [enter] using ih

/-- One value for each block of a trail, which may depend on the scopes around the block. -/
def along {α : Type} (f : List Scope → Opening → α) : List Opening → List α
  | [] => []
  | opening :: trail => f (enter [] trail) opening :: along f trail

theorem mem_along {α : Type} {f : List Scope → Opening → α} {trail : List Opening} {x : α} :
    x ∈ along f trail ↔
      ∃ inner opening outer, trail = inner ++ opening :: outer ∧
        x = f (enter [] outer) opening := by
  constructor
  · intro h
    induction trail with
    | nil => cases h
    | cons opening trail ih =>
      rcases List.mem_cons.mp h with rfl | h
      · exact ⟨[], opening, trail, rfl, rfl⟩
      · obtain ⟨inner, middle, outer, rfl, rfl⟩ := ih h
        exact ⟨opening :: inner, middle, outer, rfl, rfl⟩
  · rintro ⟨inner, opening, outer, rfl, rfl⟩
    induction inner with
    | nil => exact List.mem_cons_self
    | cons first inner ih => exact List.mem_cons_of_mem _ ih

theorem map_along {α β : Type} {f : List Scope → Opening → α} {f' : List Scope → Opening → β}
    {g : α → β} {trail : List Opening}
    (h : ∀ inner opening outer, trail = inner ++ opening :: outer →
      g (f (enter [] outer) opening) = f' (enter [] outer) opening) :
    (along f trail).map g = along f' trail := by
  induction trail with
  | nil => rfl
  | cons opening trail ih =>
    have hrest := ih fun inner middle outer htrail =>
      h (opening :: inner) middle outer (by rw [htrail, List.cons_append])
    rw [along, along, List.map_cons, h [] opening trail rfl, hrest]

theorem enter_eq_along (trail : List Opening) : enter [] trail = along Opening.scope trail := by
  induction trail with
  | nil => rfl
  | cons opening trail ih => rw [enter, along, ← ih]

theorem mem_enter {trail : List Opening} {scope : Scope} (h : scope ∈ enter [] trail) :
    scope.names ≠ [] ∧ scope.replacements = none := by
  rw [enter_eq_along, mem_along] at h
  obtain ⟨inner, opening, outer, -, rfl⟩ := h
  exact ⟨opening.scope_names_ne_nil _, opening.scope_replacements _⟩

/-- The name that a reference stands under: outside all scopes its first member, otherwise a
name of the scope that it reaches, or a name that some scope from there outwards introduces. -/
def anchor (scopes : List Scope) (path : Path) : String :=
  match scopes.drop path.depth, path.parts with
  | [], parts => parts.headD ""
  | scope :: _, [] => scope.value?.getD unresolved
  | scope :: outer, first :: _ =>
    if path.isKey then scope.key?.getD "key"
    else if ∃ other ∈ scope :: outer, first ∈ other.names then first
    else scope.value?.getD unresolved

/-- A member begins with its own name if some scope introduces that, and otherwise with the
name of the scope's value. -/
theorem firstName_member {scope : Scope} {outer : List Scope} {first : String} {path : Path}
    (hnames : scope.names ≠ []) (hplain : ∀ other ∈ scope :: outer, other.replacements = none)
    (hfirst : path.parts.headD "" = first) :
    firstName (Scopes.member scope outer first path.joined) =
      firstName (if ∃ other ∈ scope :: outer, first ∈ other.names then first
        else scope.value?.getD unresolved) := by
  unfold Scopes.member
  simp only [Scopes.mem_merge_names, Scopes.merge_replacements hplain]
  split
  · rw [Dictionary.get?_empty, Option.getD_none, firstName_joined, hfirst]
  · obtain ⟨value, names, hvalue⟩ := List.exists_cons_of_ne_nil hnames
    simp only [Scope.value?, hvalue]
    exact firstName_append value path.joined

/-- A converted reference begins with its name. -/
theorem firstName_resolve {trail : List Opening} {path : Path} (h : path.depth ≤ trail.length) :
    firstName (Scopes.resolve (enter [] trail) path).text =
      firstName (anchor (enter [] trail) path) := by
  have hdepth : ¬ (enter [] trail).length < path.depth := by
    rw [length_enter, List.length_nil]
    omega
  unfold Scopes.resolve anchor
  rw [if_neg hdepth]
  cases hdrop : (enter [] trail).drop path.depth with
  | nil => exact firstName_joined path
  | cons scope outer =>
    have hscopes : ∀ other ∈ scope :: outer, other ∈ enter [] trail := by
      intro other hother
      rw [← hdrop] at hother
      exact List.mem_of_mem_drop hother
    cases hparts : path.parts with
    | nil => rfl
    | cons first rest =>
      simp only
      split
      · cases scope.key? <;> rfl
      · exact firstName_member (mem_enter (hscopes scope List.mem_cons_self)).1
          (fun other hother => (mem_enter (hscopes other hother)).2) (by rw [hparts]; rfl)

def binds : Piece → List String
  | .forValues value _ => [value]
  | .forEntries key value _ => [key, value]
  | .withOpen name _ _ => [name]
  | _ => []

/-- Whether a program asks the loop around it for a key. -/
def asksKey (o : Options) (body : List Statement) : Bool :=
  (sitesOfBody o body).any fun site =>
    site.path.isKey && !site.path.isCurrent && site.path.depth = site.trail.length

/-- The variables that a block provides: a loop with a single name adds a key if it is asked
for one, a loop with two names has both, and any further names are not provided. -/
def Opening.offers (o : Options) (outer : List Scope) : Opening → List String
  | loop args program =>
    match ((loop args program).scope outer).names with
    | [] => []
    | [value] => if asksKey o program.body then ["key", value] else [value]
    | [value, key] => [key, value]
    | value :: _ => [value]
  | entry _ _ name => [name]

/-- A loop is marked if its body asks for a key and the loop has no name for it. -/
theorem contains_marks {o : Options} {body : List Statement} {scope : Scope} {outer : List Scope}
    {log : Log} (h : statements o body (scope :: outer) false = ⟨log, .ok ()⟩) :
    log.marks.contains (outer.length + 1) = (asksKey o body && scope.key?.isNone) := by
  rw [Bool.eq_iff_iff, List.contains_iff_mem, statements_marks o body h, marksOf,
    List.mem_filter, List.mem_flatMap, Bool.and_eq_true, asksKey, List.any_eq_true]
  simp only [mem_markOf, Bool.and_eq_true, Bool.not_eq_true', decide_eq_true_eq,
    Option.isNone_iff_eq_none]
  constructor
  · rintro ⟨⟨site, hsite, target, rest, hdrop, hkey, hmember, hname, hlength⟩, -⟩
    -- Only the scope of the loop itself has this depth, so the reference leaves all others.
    have hdepth : site.path.depth = site.trail.length := by
      have hrest := congrArg List.length hdrop
      simp only [List.length_drop, length_enter, List.length_cons] at hrest
      omega
    rw [hdepth, drop_enter] at hdrop
    cases hdrop
    exact ⟨⟨site, hsite, ⟨hkey, hmember⟩, hdepth⟩, hname⟩
  · rintro ⟨⟨site, hsite, ⟨hkey, hmember⟩, hdepth⟩, hname⟩
    refine ⟨⟨site, hsite, scope, outer, ?_, hkey, hmember, hname, rfl⟩, ?_⟩
    · rw [hdepth, drop_enter]
    · exact Nat.le_refl (outer.length + 1)

/-- The tag of a block binds what the block provides. -/
theorem Opening.Holds.binds_header {o : Options} {outer : List Scope} {site : Site}
    {opening : Opening} (h : opening.Holds o outer site) :
    binds (opening.header o outer) = opening.offers o outer := by
  cases opening with
  | entry collection key name => rfl
  | loop args program =>
    obtain ⟨-, log, hrun⟩ := h
    have hmarks := contains_marks hrun
    obtain ⟨body, blockParams⟩ := program
    simp only [header, scope, offers] at hrun hmarks ⊢
    rw [hrun, hmarks]
    rcases blockParams with _ | ⟨value, _ | ⟨key, _ | ⟨third, rest⟩⟩⟩
    · cases asksKey o body <;> rfl
    · cases asksKey o body <;> rfl
    · rfl
    · simp [loopHeader, loopNames, binds, Scope.key?]

/-- The tags that are written for some blocks, the innermost first. -/
def headers (o : Options) : List Opening → List Piece :=
  along (Opening.header o)

def offered (o : Options) : List Opening → List (List String) :=
  along (Opening.offers o)

/-- Of at most two names, a block provides all. -/
theorem Opening.mem_offers {o : Options} {outer : List Scope} {opening : Opening} {name : String}
    (hname : name ∈ (opening.scope outer).names)
    (hlength : (opening.scope outer).names.length ≤ 2) : name ∈ opening.offers o outer := by
  cases opening with
  | entry collection key only => exact hname
  | loop args program =>
    rw [offers]
    generalize ((loop args program).scope outer).names = names at hname hlength ⊢
    rcases names with _ | ⟨value, _ | ⟨key, _ | ⟨third, rest⟩⟩⟩
    · cases hname
    · cases List.mem_singleton.mp hname
      cases asksKey o program.body <;> simp
    · simpa [or_comm] using hname
    · simp at hlength

theorem exists_offered {o : Options} {trail : List Opening} {scope : Scope} {name : String}
    (hscope : scope ∈ enter [] trail) (hname : name ∈ scope.names)
    (hlength : scope.names.length ≤ 2) : ∃ names ∈ offered o trail, name ∈ names := by
  rw [enter_eq_along, mem_along] at hscope
  obtain ⟨inner, opening, outer, htrail, rfl⟩ := hscope
  exact ⟨_, mem_along.mpr ⟨inner, opening, outer, htrail, rfl⟩, Opening.mem_offers hname hlength⟩

theorem exists_binds {pieces : List Piece} {x : String} :
    (∃ header ∈ pieces, x ∈ binds header) ↔ ∃ names ∈ pieces.map binds, x ∈ names := by
  constructor
  · rintro ⟨header, hheader, hx⟩
    exact ⟨binds header, List.mem_map_of_mem hheader, hx⟩
  · rintro ⟨names, hnames, hx⟩
    obtain ⟨header, hheader, rfl⟩ := List.mem_map.mp hnames
    exact ⟨header, hheader, hx⟩

namespace Site

def text (site : Site) : String :=
  (Scopes.resolve (enter [] site.trail) site.path).text

/-- The variable that the reference should begin with. -/
def root (site : Site) : String :=
  firstName (anchor (enter [] site.trail) site.path)

/-- The tags of the blocks around the reference stand in the document. -/
def Written (o : Options) (doc : Document) (site : Site) : Prop :=
  ∃ pieces, doc.output = Django.Fragment.render pieces ∧ headers o site.trail ⊆ pieces

/-- A block that the reference leaves binds the variable that its text begins with. -/
def Captured (o : Options) (site : Site) : Prop :=
  ∃ header ∈ (headers o site.trail).take site.path.depth, firstName site.text ∈ binds header

/-- Some block around the reference binds the variable that its text begins with. -/
def Bound (o : Options) (site : Site) : Prop :=
  ∃ header ∈ headers o site.trail, firstName site.text ∈ binds header

section
variable (o : Options) (p : Program) {doc : Document} {site : Site}

theorem held_of_ofProgram (h : Document.ofProgram o p = .ok doc)
    (hsite : site ∈ sitesOfBody o p.body) :
    ∃ pieces, doc.output = Django.Fragment.render pieces ∧ site.Held o [] pieces := by
  obtain ⟨log, hrun, rfl⟩ := Document.ofProgram_eq_ok h
  exact ⟨log.pieces, rfl, statements_hold o p.body hrun site hsite⟩

theorem written_of_ofProgram (h : Document.ofProgram o p = .ok doc)
    (hsite : site ∈ sitesOfBody o p.body) : site.Written o doc := by
  obtain ⟨pieces, houtput, hheld⟩ := held_of_ofProgram o p h hsite
  refine ⟨pieces, houtput, ?_⟩
  intro header hheader
  obtain ⟨inner, opening, outer, htrail, rfl⟩ := mem_along.mp hheader
  exact (hheld inner opening outer htrail).2

theorem map_binds_of_ofProgram (h : Document.ofProgram o p = .ok doc)
    (hsite : site ∈ sitesOfBody o p.body) :
    (headers o site.trail).map binds = offered o site.trail := by
  obtain ⟨pieces, -, hheld⟩ := held_of_ofProgram o p h hsite
  apply map_along
  intro inner opening outer htrail
  exact (hheld inner opening outer htrail).1.binds_header

/-- A reference is captured exactly when a block that it leaves provides a variable of the name
that it stands under. -/
theorem captured_iff (h : Document.ofProgram o p = .ok doc)
    (hsite : site ∈ sitesOfBody o p.body) (hdepth : site.path.depth ≤ site.trail.length) :
    site.Written o doc ∧
      (site.Captured o ↔
        ∃ names ∈ (offered o site.trail).take site.path.depth, site.root ∈ names) := by
  refine ⟨written_of_ofProgram o p h hsite, ?_⟩
  have hroot : firstName site.text = site.root := firstName_resolve hdepth
  rw [Captured, hroot, exists_binds, List.map_take, map_binds_of_ofProgram o p h hsite]

end

/-- A loop over `items` inside a loop over `items`, from which the outer element's name is
shown. -/
def sameCollection : Program :=
  .ofBody [.block (.parse "each") { params := [.path (.parse "items")] }
    (.ofBody [.block (.parse "each") { params := [.path (.parse "items")] }
      (.ofBody [.mustache (.path (.parse "../name")) {} true]) none]) none]

theorem captured_sameCollection :
    Document.ofProgram {} sameCollection = .ok
      { output := "\x7b% for items_i in items %\x7d\x7b% for items_i in items_i.items %\x7d" ++
          "\x7b\x7b items_i.name \x7d\x7d\x7b% endfor %\x7d\x7b% endfor %\x7d"
        diagnostics := []
        conditionals := 0 } ∧
      ∃ site ∈ sitesOfBody {} sameCollection.body,
        site.path = .parse "../name" ∧ site.text = "items_i.name" ∧ site.Captured {} := by
  have hsite : (sitesOfBody {} sameCollection.body)[2] ∈ sitesOfBody {} sameCollection.body :=
    List.getElem_mem (by decide)
  refine ⟨rfl, _, hsite, by decide +kernel, by decide +kernel, ?_⟩
  apply (captured_iff {} sameCollection rfl hsite (by decide +kernel)).2.mpr
  decide +kernel

section
variable (o : Options) (p : Program) {doc : Document} {site : Site}

/-- A reference into a scope is bound exactly when some block around it provides a variable of
the name that it stands under. -/
theorem bound_iff (h : Document.ofProgram o p = .ok doc)
    (hsite : site ∈ sitesOfBody o p.body) (hdepth : site.path.depth < site.trail.length) :
    site.Written o doc ∧
      (site.Bound o ↔ ∃ names ∈ offered o site.trail, site.root ∈ names) := by
  refine ⟨written_of_ofProgram o p h hsite, ?_⟩
  have hroot : firstName site.text = site.root := firstName_resolve (Nat.le_of_lt hdepth)
  rw [Bound, hroot, exists_binds, map_binds_of_ofProgram o p h hsite]

end

/-- A lookup inside a loop, from which the key of the entry is shown. -/
def keyInLookup : Program :=
  .ofBody [.block (.parse "each") { params := [.path (.parse "items")] }
    (.ofBody [.block (.parse "with")
      { params := [.call (.parse "lookup") [.path (.parse "m"), .path (.parse "id")] []] }
      ⟨[.mustache (.path (.parse "@key")) {} true], ["n"]⟩ none]) none]

theorem not_bound_keyInLookup :
    Document.ofProgram {} keyInLookup = .ok
      { output := "\x7b% for items_i in items %\x7d" ++
          "\x7b% with n=items_i.m|lookup:items_i.id %\x7d" ++
          "\x7b\x7b key \x7d\x7d\x7b% endwith %\x7d\x7b% endfor %\x7d"
        diagnostics := []
        conditionals := 0 } ∧
      ∃ site ∈ sitesOfBody {} keyInLookup.body,
        site.path = .parse "@key" ∧ site.text = "key" ∧ ¬ site.Bound {} := by
  have hsite : (sitesOfBody {} keyInLookup.body)[3] ∈ sitesOfBody {} keyInLookup.body :=
    List.getElem_mem (by decide)
  refine ⟨rfl, _, hsite, by decide +kernel, by decide +kernel, ?_⟩
  rw [(bound_iff {} keyInLookup rfl hsite (by decide +kernel)).2]
  decide +kernel

section
variable (o : Options) (p : Program) {doc : Document} {site : Site}

/-- A `@key` that reaches a loop with a single name finds a key there. -/
theorem key_mem_offers (h : Document.ofProgram o p = .ok doc)
    (hsite : site ∈ sitesOfBody o p.body) {inner outer : List Opening} {args : Arguments}
    {program : Program} (htrail : site.trail = inner ++ .loop args program :: outer)
    (hdepth : site.path.depth = inner.length) (hkey : site.path.isKey = true)
    (hmember : site.path.isCurrent = false)
    (hname : ((Opening.loop args program).scope (enter [] outer)).key? = none) :
    "key" ∈ (Opening.loop args program).offers o (enter [] outer) := by
  obtain ⟨pieces, -, hheld⟩ := held_of_ofProgram o p h hsite
  obtain ⟨⟨hfound, -⟩, -⟩ := hheld inner _ outer htrail
  have hasks : asksKey o program.body = true := by
    rw [asksKey, List.any_eq_true]
    exact ⟨_, hfound, by simp [hkey, hmember, hdepth]⟩
  have hnames := (Opening.loop args program).scope_names_ne_nil (enter [] outer)
  rw [Opening.offers]
  rw [Scope.key?] at hname
  generalize ((Opening.loop args program).scope (enter [] outer)).names = names at hnames hname ⊢
  rcases names with _ | ⟨value, _ | ⟨key, rest⟩⟩
  · exact absurd rfl hnames
  · simp [hasks]
  · cases hname

/-- References are bound where blocks introduce at most two names, none of them dotted, as long
as no `@key` reaches a lookup. -/
theorem bound_of_plain (h : Document.ofProgram o p = .ok doc)
    (hsite : site ∈ sitesOfBody o p.body)
    (hplain : ∀ scope ∈ enter [] site.trail,
      scope.names.length ≤ 2 ∧ ∀ name ∈ scope.names, '.' ∉ name.toList)
    {inner outer : List Opening} {opening : Opening}
    (htrail : site.trail = inner ++ opening :: outer) (hdepth : site.path.depth = inner.length)
    (hloop : site.path.isKey = true → ∃ args program, opening = .loop args program) :
    site.Bound o := by
  have hinside : site.path.depth < site.trail.length := by
    rw [htrail, List.length_append, List.length_cons]
    omega
  have hroot : firstName site.text = site.root := firstName_resolve (Nat.le_of_lt hinside)
  rw [Bound, hroot, exists_binds, map_binds_of_ofProgram o p h hsite]
  have hdrop : (enter [] site.trail).drop site.path.depth =
      opening.scope (enter [] outer) :: enter [] outer := by
    rw [htrail, enter_append, hdepth, drop_enter, enter]
  have hscopes : ∀ scope ∈ opening.scope (enter [] outer) :: enter [] outer,
      scope ∈ enter [] site.trail := by
    intro scope hscope
    rw [← hdrop] at hscope
    exact List.mem_of_mem_drop hscope
  -- A name of a scope that is reached is undotted and provided by the block of that scope.
  have hprovided : ∀ scope ∈ opening.scope (enter [] outer) :: enter [] outer,
      ∀ name ∈ scope.names, ∃ names ∈ offered o site.trail, firstName name ∈ names := by
    intro scope hscope name hname
    obtain ⟨hlength, hundotted⟩ := hplain scope (hscopes scope hscope)
    rw [firstName_of_undotted (hundotted name hname)]
    exact exists_offered (hscopes scope hscope) hname hlength
  obtain ⟨value, rest, hnames⟩ :=
    List.exists_cons_of_ne_nil (opening.scope_names_ne_nil (enter [] outer))
  have hvalue : ∃ names ∈ offered o site.trail,
      firstName ((opening.scope (enter [] outer)).value?.getD unresolved) ∈ names := by
    apply hprovided _ List.mem_cons_self
    simp [Scope.value?, hnames]
  unfold root anchor
  rw [hdrop]
  cases hparts : site.path.parts with
  | nil => exact hvalue
  | cons first members =>
    simp only
    split
    · next hkey =>
      cases hname : (opening.scope (enter [] outer)).key? with
      | some key =>
        apply hprovided _ List.mem_cons_self
        exact List.mem_of_getElem? hname
      | none =>
        obtain ⟨args, program, rfl⟩ := hloop hkey
        have hmember : site.path.isCurrent = false := by
          rw [Path.isCurrent, hparts]
          rfl
        refine ⟨_, mem_along.mpr ⟨inner, _, outer, htrail, rfl⟩, ?_⟩
        exact key_mem_offers o p h hsite htrail hdepth hkey hmember hname
    · split
      · next hmember =>
        obtain ⟨scope, hscope, hfirst⟩ := hmember
        exact hprovided scope hscope first hfirst
      · exact hvalue

end

end Site

end Stencil.Conversion
