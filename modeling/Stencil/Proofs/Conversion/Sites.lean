import Stencil.Proofs.Conversion.Reading

/-!
# Where references stand

A site is a reference together with the blocks that open scopes around it. The
sites of a program are listed by going through its source. The marks that a
conversion leaves are those of its sites, as far as they concern scopes outside
the program, and a loop is asked for its key exactly when one of the sites in
its body is a `@key` that leaves all scopes inside the loop.
-/

namespace Stencil.Conversion

open Handlebars (Path Expr Arguments Statement Program)
open Django (Piece)

def Step.text (x : Step String) : String :=
  match x.result with
  | .ok text => text
  | .error _ => unresolved

/-- A block whose body is converted in a scope of its own. -/
inductive Opening
  | loop (args : Arguments) (program : Program)
  | entry (collection key : Expr) (name : String)

namespace Opening

/-- What a block opens, if it opens a scope. -/
def of? (helper : Path) (args : Arguments) (program : Program) : Option Opening :=
  if helper.spelling = "each" then some (loop args program)
  else if helper.spelling = "with" then
    (lookup? args program.blockParams).map fun (collection, key, name) =>
      entry collection key name
  else none

def scope (outer : List Scope) : Opening → Scope
  | loop args program =>
    { names := loopNames program.blockParams (collection outer args.params[0]?).text }
  | entry _ _ name => { names := [name] }

def header (o : Options) (outer : List Scope) : Opening → Piece
  | loop args program =>
    let items := (collection outer args.params[0]?).text
    let names := loopNames program.blockParams items
    let body := statements o program.body ({ names } :: outer) false
    loopHeader names items
      (program.blockParams.length = 2 || body.log.marks.contains (outer.length + 1))
  | entry collection key name =>
    .withOpen name (argument outer collection).text (argument outer key).text

def dropsInverse : Opening → Bool
  | loop .. => false
  | entry .. => true

end Opening

/-- The scopes inside some blocks, the innermost first, that stand in `outer`. -/
def enter (outer : List Scope) : List Opening → List Scope
  | [] => outer
  | opening :: trail => opening.scope (enter outer trail) :: enter outer trail

theorem enter_append (outer : List Scope) (inner trail : List Opening) :
    enter outer (inner ++ trail) = enter (enter outer trail) inner := by
  induction inner with
  | nil => rfl
  | cons opening inner ih => simp [enter, ih]

@[simp] theorem length_enter (outer : List Scope) (trail : List Opening) :
    (enter outer trail).length = trail.length + outer.length := by
  induction trail with
  | nil => simp [enter]
  | cons opening trail ih =>
    simp only [enter, List.length_cons, ih]
    omega

/-- A reference and the blocks around it that open scopes, the innermost first. -/
structure Site where
  trail : List Opening
  path : Path

namespace Site

/-- A reference in the head of a tag. -/
def here (path : Path) : Site :=
  ⟨[], path⟩

/-- The same reference, seen from outside of a block. -/
def within (opening : Option Opening) (site : Site) : Site :=
  { site with trail := site.trail ++ opening.toList }

end Site

def blockPaths (helper : Path) (args : Arguments) (blockParams : List String) : List Path :=
  if helper.spelling = "if" || helper.spelling = "unless" then conditionPaths args.params[0]?
  else if helper.spelling = "eq" || helper.spelling = "is" || helper.spelling = "each" then
    argumentPaths? args.params[0]?
  else if helper.spelling = "with" then
    match lookup? args blockParams with
    | some (collection, key, _) => argumentPaths collection ++ argumentPaths key
    | none => []
  else []

section
variable {helper : Path} {args : Arguments} {blockParams : List String}

theorem blockPaths_condition (h : helper.spelling = "if" ∨ helper.spelling = "unless") :
    blockPaths helper args blockParams = conditionPaths args.params[0]? := by
  rcases h with h | h <;> simp [blockPaths, h]

theorem blockPaths_argument
    (h : helper.spelling = "eq" ∨ helper.spelling = "is" ∨ helper.spelling = "each") :
    blockPaths helper args blockParams = argumentPaths? args.params[0]? := by
  rcases h with h | h | h <;> simp [blockPaths, h]

theorem blockPaths_lookup {collection key : Expr} {name : String} (h : helper.spelling = "with")
    (shape : lookup? args blockParams = some (collection, key, name)) :
    blockPaths helper args blockParams = argumentPaths collection ++ argumentPaths key := by
  simp [blockPaths, h, shape]

end

mutual

/-- The sites of a statement in the order in which they are resolved. -/
def sites (o : Options) : Statement → List Site
  | .content _ => []
  | .comment _ => []
  | .mustache head args _ => (mustachePaths o head args).map .here
  | .block helper args ⟨body, blockParams⟩ inverse =>
    let opening := Opening.of? helper args ⟨body, blockParams⟩
    (blockPaths helper args blockParams).map .here ++
      (sitesOfBody o body).map (·.within opening) ++
      if opening.any Opening.dropsInverse then [] else sitesOfInverse o inverse
  | .embed name args => (inclusionPaths name args).map .here

def sitesOfBody (o : Options) : List Statement → List Site
  | [] => []
  | s :: rest => sites o s ++ sitesOfBody o rest

def sitesOfInverse (o : Options) : Option Program → List Site
  | none => []
  | some ⟨body, _⟩ => sitesOfBody o body

end

/-- A mark is left by a `@key` that reaches a scope without a name for it. -/
theorem mem_markOf {scopes : List Scope} {path : Path} {mark : Nat} :
    mark ∈ markOf scopes path ↔
      ∃ scope outer, scopes.drop path.depth = scope :: outer ∧ path.isKey = true ∧
        path.isCurrent = false ∧ scope.key? = none ∧ mark = outer.length + 1 := by
  unfold markOf Scopes.resolve
  by_cases hdepth : scopes.length < path.depth
  · have hdrop : scopes.drop path.depth = [] := List.drop_eq_nil_of_le (Nat.le_of_lt hdepth)
    simp [hdepth, hdrop]
  · rw [if_neg hdepth]
    cases hdrop : scopes.drop path.depth with
    | nil => simp
    | cons scope outer =>
      cases hparts : path.parts with
      | nil => simp [Path.isCurrent, hparts]
      | cons first rest =>
        cases hkey : path.isKey with
        | false => simp
        | true =>
          cases hname : scope.key? with
          | some key => simp [Path.isCurrent, hparts, hname]
          | none =>
            have hcurrent : path.isCurrent = false := by rw [Path.isCurrent, hparts]; rfl
            simp only [hname, if_true, Option.toList_some, List.mem_singleton]
            constructor
            · intro h
              exact ⟨scope, outer, rfl, trivial, hcurrent, hname, h⟩
            · rintro ⟨_, _, heq, -, -, -, rfl⟩
              cases heq
              rfl

theorem markOf_le {scopes : List Scope} {path : Path} {mark : Nat}
    (h : mark ∈ markOf scopes path) : mark ≤ scopes.length := by
  obtain ⟨scope, outer, hdrop, -, -, -, rfl⟩ := mem_markOf.mp h
  have hlength : (scopes.drop path.depth).length = outer.length + 1 := by
    rw [hdrop, List.length_cons]
  rw [List.length_drop] at hlength
  omega

/-- The marks that sites leave on scopes outside, for a program inside `scopes`. -/
def marksOf (scopes : List Scope) (found : List Site) : List Nat :=
  (found.flatMap fun site => markOf (enter scopes site.trail) site.path).filter (· ≤ scopes.length)

section
variable (scopes : List Scope)

theorem marksOf_append (first second : List Site) :
    marksOf scopes (first ++ second) = marksOf scopes first ++ marksOf scopes second := by
  simp [marksOf]

theorem marksOf_here (paths : List Path) :
    marksOf scopes (paths.map .here) = paths.flatMap (markOf scopes) := by
  unfold marksOf
  rw [List.flatMap_map, List.filter_eq_self.mpr]
  · rfl
  · intro mark hmark
    obtain ⟨path, -, hmem⟩ := List.mem_flatMap.mp hmark
    exact decide_eq_true (markOf_le hmem)

theorem marksOf_within_none (found : List Site) :
    marksOf scopes (found.map (·.within none)) = marksOf scopes found := by
  simp [marksOf, Site.within]

/-- Marks on the scope that was opened go no further. -/
theorem marksOf_within_some (opening : Opening) (found : List Site) :
    marksOf scopes (found.map (·.within (some opening))) =
      (marksOf (opening.scope scopes :: scopes) found).filter (· ≤ scopes.length) := by
  have henter : ∀ site : Site, enter scopes (site.within (some opening)).trail =
      enter (opening.scope scopes :: scopes) site.trail := by
    intro site
    exact enter_append scopes site.trail [opening]
  unfold marksOf
  rw [List.flatMap_map, List.filter_filter]
  simp only [henter]
  apply List.filter_congr
  intro mark _
  simp only [List.length_cons, ← Bool.decide_and, decide_eq_decide]
  omega

end

def blockOf (o : Options) (helper : Path) (args : Arguments) (program : Program)
    (inverse : Option Program) : Block where
  helper := helper
  args := args
  blockParams := program.blockParams
  main := branch o program
  inverse := branch? o inverse

section
variable {o : Options} {helper : Path} {args : Arguments} {program : Program}
variable {inverse : Option Program}

@[simp] theorem blockOf_helper : (blockOf o helper args program inverse).helper = helper := rfl

@[simp] theorem blockOf_args : (blockOf o helper args program inverse).args = args := rfl

@[simp] theorem blockOf_blockParams :
    (blockOf o helper args program inverse).blockParams = program.blockParams := rfl

@[simp] theorem blockOf_main :
    (blockOf o helper args program inverse).main = branch o program := rfl

@[simp] theorem blockOf_inverse :
    (blockOf o helper args program inverse).inverse = branch? o inverse := rfl

end

theorem branch_convert (o : Options) (program : Program) (scopes : List Scope) (chained : Bool) :
    (branch o program).convert scopes chained = statements o program.body scopes chained := by
  obtain ⟨body, blockParams⟩ := program
  rw [branch]

theorem branch_loneIf (o : Options) (program : Program) :
    (branch o program).loneIf = program.isLoneIf := by
  obtain ⟨body, blockParams⟩ := program
  rw [branch]

/-- The inverse of a block has been converted, if there is one, as part of this log. -/
inductive InverseRan (o : Options) (scopes : List Scope) : Option Program → Log → Prop
  | none {log : Log} (marks : log.marks = []) : InverseRan o scopes none log
  | some {other : Program} {chained : Bool} {body log : Log}
      (main : statements o other.body scopes chained = ⟨body, .ok ()⟩)
      (marks : log.marks = body.marks) (written : body.pieces <:+: log.pieces) :
      InverseRan o scopes (some other) log

/-- The parts of a block have been converted, each in its scopes, as parts of this log. -/
inductive BlockRan (o : Options) (scopes : List Scope) (helper : Path) (args : Arguments)
    (program : Program) (inverse : Option Program) : Log → Prop
  | enclosed {body rest log : Log}
      (closed : Opening.of? helper args program = none)
      (main : statements o program.body scopes false = ⟨body, .ok ()⟩)
      (other : InverseRan o scopes inverse rest)
      (marks : log.marks = (blockPaths helper args program.blockParams).flatMap (markOf scopes) ++
        body.marks ++ rest.marks)
      (written : body.pieces ++ rest.pieces <:+: log.pieces) :
      BlockRan o scopes helper args program inverse log
  | opened {opening : Opening} {body rest log : Log}
      (opens : Opening.of? helper args program = some opening)
      (main : statements o program.body (opening.scope scopes :: scopes) false = ⟨body, .ok ()⟩)
      (dropped : opening.dropsInverse = true → rest.marks = [])
      (other : opening.dropsInverse = false → InverseRan o scopes inverse rest)
      (marks : log.marks = (blockPaths helper args program.blockParams).flatMap (markOf scopes) ++
        body.marks.filter (· ≤ scopes.length) ++ rest.marks)
      (written : opening.header o scopes :: (body.pieces ++ rest.pieces) <:+: log.pieces) :
      BlockRan o scopes helper args program inverse log

section
variable {o : Options} {helper : Path} {args : Arguments} {program : Program}
variable {inverse : Option Program} {scopes : List Scope} {chained : Bool} {log : Log}

theorem statement_block_ran
    (h : statement o (.block helper args program inverse) scopes chained = ⟨log, .ok ()⟩) :
    Ran scopes chained (blockOf o helper args program inverse) log := by
  rw [statement] at h
  exact block_ran h

theorem Step.text_of_eq_ok {x : Step String} {text : String} (h : x = ⟨log, .ok text⟩) :
    x.text = text := by
  rw [h]
  rfl

theorem Opening.loop_scope {reading : Log} {items : String}
    (head : collection scopes args.params[0]? = ⟨reading, .ok items⟩) :
    (loop args program).scope scopes = { names := loopNames program.blockParams items } := by
  rw [scope, Step.text_of_eq_ok head]

theorem Opening.loop_header {reading body : Log} {items : String}
    (head : collection scopes args.params[0]? = ⟨reading, .ok items⟩)
    (main : statements o program.body ({ names := loopNames program.blockParams items } :: scopes)
      false = ⟨body, .ok ()⟩) :
    (loop args program).header o scopes =
      loopHeader (loopNames program.blockParams items) items
        (program.blockParams.length = 2 || body.marks.contains (scopes.length + 1)) := by
  simp only [header, Step.text_of_eq_ok head, main]

theorem Opening.of?_loop (h : helper.spelling = "each") :
    of? helper args program = some (loop args program) := by
  rw [of?, if_pos h]

theorem Opening.of?_entry {collection key : Expr} {name : String} (h : helper.spelling = "with")
    (shape : lookup? args program.blockParams = some (collection, key, name)) :
    of? helper args program = some (entry collection key name) := by
  simp [of?, h, shape]

theorem Opening.of?_none (h : helper.spelling ≠ "each")
    (shape : helper.spelling = "with" → lookup? args program.blockParams = none) :
    of? helper args program = none := by
  rw [of?, if_neg h]
  split
  · next hwith => rw [shape hwith]; rfl
  · rfl

theorem inverse_eq_none (h : branch? o inverse = none) : inverse = none := by
  cases inverse with
  | none => rfl
  | some program => cases h

/-- An inverse whose branch has been converted. -/
theorem inverseRan_of_convert {other : Branch} {body : Log}
    (hother : branch? o inverse = some other)
    (hbody : other.convert scopes chained = ⟨body, .ok ()⟩) (marks : log.marks = body.marks)
    (written : body.pieces <:+: log.pieces) : InverseRan o scopes inverse log := by
  cases inverse with
  | none => cases hother
  | some program =>
    cases hother
    rw [branch_convert] at hbody
    exact .some hbody marks written

theorem alternative_inverseRan {mark : Piece}
    (h : alternative scopes mark (branch? o inverse) = ⟨log, .ok ()⟩) :
    InverseRan o scopes inverse log := by
  rcases alternative_eq_ok h with ⟨hnone, rfl⟩ | ⟨other, body, hother, hbody, rfl⟩
  · rw [inverse_eq_none hnone]
    exact .none rfl
  · exact inverseRan_of_convert hother hbody rfl ⟨[mark], [], by simp [Log.pieces]⟩

theorem chainedAlternative_inverseRan
    (h : chainedAlternative scopes (branch? o inverse) = ⟨log, .ok ()⟩) :
    InverseRan o scopes inverse log := by
  rcases chainedAlternative_eq_ok h with ⟨hnone, rfl⟩ | ⟨other, body, hother, hbody, rfl⟩
  · rw [inverse_eq_none hnone]
    exact .none rfl
  · refine inverseRan_of_convert hother hbody rfl ?_
    cases other.loneIf with
    | true => exact ⟨[], [], by simp [Log.pieces]⟩
    | false => exact ⟨[.elseMark], [], by simp [Log.pieces]⟩

/-- What a block writes holds its opening piece, its body and what follows, one behind the
other. -/
theorem infix_enclose (reading body rest : Log) (opening : Piece) (closing : Option Piece) :
    opening :: (body.pieces ++ rest.pieces) <:+:
      (reading.enclose opening body rest closing).pieces :=
  ⟨reading.pieces, (closing.toList.map fun piece => [piece]).flatten, by
    simp [Log.enclose, Log.pieces]⟩

/-- A block that opens no scope. -/
theorem BlockRan.of_enclose {reading body rest : Log} {opening : Piece} {closing : Option Piece}
    (closed : Opening.of? helper args program = none)
    (head : reading.marks =
      (blockPaths helper args program.blockParams).flatMap (markOf scopes))
    (main : (branch o program).convert scopes false = ⟨body, .ok ()⟩)
    (other : InverseRan o scopes inverse rest) :
    BlockRan o scopes helper args program inverse
      (reading.enclose opening body rest closing) := by
  rw [branch_convert] at main
  refine .enclosed closed main other (by simp only [Log.enclose, head]) ?_
  exact (List.suffix_cons opening _).isInfix.trans
    (infix_enclose reading body rest opening closing)

/-- A block that opens a scope. -/
theorem BlockRan.of_enclose_leave {opening : Opening} {reading body rest : Log}
    {header : Piece} {closing : Option Piece}
    (opens : Opening.of? helper args program = some opening)
    (head : reading.marks =
      (blockPaths helper args program.blockParams).flatMap (markOf scopes))
    (main : (branch o program).convert (opening.scope scopes :: scopes) false = ⟨body, .ok ()⟩)
    (written : opening.header o scopes = header)
    (dropped : opening.dropsInverse = true → rest.marks = [])
    (other : opening.dropsInverse = false → InverseRan o scopes inverse rest) :
    BlockRan o scopes helper args program inverse
      (reading.enclose header (body.leave scopes.length) rest closing) := by
  rw [branch_convert] at main
  refine .opened opens main dropped other (by simp only [Log.enclose, Log.leave, head]) ?_
  rw [written]
  exact infix_enclose reading (body.leave scopes.length) rest header closing

/-- Whichever way a block is written, its parts have been converted in their scopes. -/
theorem Ran.blockRan (h : Ran scopes chained (blockOf o helper args program inverse) log) :
    BlockRan o scopes helper args program inverse log := by
  cases h with
  | chain hhelper head main other =>
    rw [blockOf_helper] at hhelper
    apply BlockRan.of_enclose _ _ main (chainedAlternative_inverseRan other)
    · apply Opening.of?_none <;> simp [hhelper]
    · simpa [blockPaths_condition (.inl hhelper)] using (condition_reads scopes _ _ _ head).2
  | negated hhelper head main other =>
    rw [blockOf_helper] at hhelper
    apply BlockRan.of_enclose _ _ main (alternative_inverseRan other)
    · apply Opening.of?_none <;> simp [hhelper]
    · simpa [blockPaths_condition (.inr hhelper)] using (condition_reads scopes _ _ _ head).2
  | equal hhelper head main other =>
    rw [blockOf_helper] at hhelper
    apply BlockRan.of_enclose _ _ main (alternative_inverseRan other)
    · apply Opening.of?_none <;> rcases hhelper with h | h <;> simp [h]
    · simpa [blockPaths_argument (hhelper.imp_right Or.inl)] using
        (argument?_reads scopes _ _ _ head).2
  | @entry first second body _ _ _ _ _ hhelper shape left right main =>
    rw [blockOf_helper] at hhelper
    rw [blockOf_args, blockOf_blockParams] at shape
    apply BlockRan.of_enclose_leave (Opening.of?_entry hhelper shape) _ main
    · rw [Opening.header, Step.text_of_eq_ok left, Step.text_of_eq_ok right]
    · intro _; rfl
    · intro h; cases h
    · have hleft := (argument_reads scopes _ _ _ left).2
      have hright := (argument_reads scopes _ _ _ right).2
      simp [blockPaths_lookup hhelper shape, hleft, hright]
  | @loop reading body rest items hhelper head main other =>
    rw [blockOf_helper] at hhelper
    rw [blockOf_args] at head
    apply BlockRan.of_enclose_leave (Opening.of?_loop hhelper)
    · simpa [blockPaths_argument (.inr (.inr hhelper))] using
        (collection_reads scopes _ _ _ head).2
    · rw [Opening.loop_scope head]
      exact main
    · rw [blockOf_main, branch_convert] at main
      exact Opening.loop_header head main
    · intro h; cases h
    · intro _
      exact alternative_inverseRan other
  | kept hhelper shape main other =>
    rw [blockOf_helper] at hhelper
    rw [blockOf_helper, blockOf_args, blockOf_blockParams] at shape
    simp only [List.mem_cons, List.not_mem_nil, or_false, not_or] at hhelper
    obtain ⟨hif, hunless, heq, his, heach⟩ := hhelper
    apply BlockRan.of_enclose (Opening.of?_none heach shape) _ main (alternative_inverseRan other)
    have hpaths : blockPaths helper args program.blockParams = [] := by
      simp only [blockPaths, hif, hunless, heq, his, heach, decide_false, Bool.or_false,
        Bool.false_eq_true, if_false]
      split
      · next hwith => rw [shape hwith]
      · rfl
    rw [hpaths]
    rfl

end

mutual

/-- A conversion leaves the marks of the sites in the source. -/
theorem statement_marks (o : Options) (s : Statement) {scopes : List Scope} {chained : Bool}
    {log : Log} (h : statement o s scopes chained = ⟨log, .ok ()⟩) :
    log.marks = marksOf scopes (sites o s) := by
  cases s with
  | content text =>
    rw [statement] at h
    rw [Step.emit_eq_ok.mp h]
    rfl
  | comment text =>
    rw [statement] at h
    rw [Step.emit_eq_ok.mp h]
    rfl
  | mustache head args escaped =>
    rw [statement] at h
    rw [sites, marksOf_here]
    obtain ⟨path, rfl, ⟨hicon, hrun⟩ | ⟨hicon, value, -, -, hmarks⟩⟩ := mustache_eq_ok h
    · obtain ⟨arguments, attributes, -, -, -, hmarks⟩ := icon_eq_ok hrun
      rw [hmarks, mustachePaths, if_pos hicon]
    · rw [hmarks, mustachePaths, if_neg hicon]
  | block helper args program inverse =>
    obtain ⟨body, blockParams⟩ := program
    rw [sites, marksOf_append, marksOf_append, marksOf_here]
    cases (statement_block_ran h).blockRan with
    | enclosed closed main other marks =>
      simp only [closed, marksOf_within_none, Option.any_none, Bool.false_eq_true, if_false]
      rw [marks, statements_marks o body main, inverse_marks o inverse other]
    | @opened opening _ rest _ opens main dropped other marks =>
      have hrest : rest.marks = marksOf scopes
          (if opening.dropsInverse then [] else sitesOfInverse o inverse) := by
        cases hdrops : opening.dropsInverse with
        | true => exact dropped hdrops
        | false => exact inverse_marks o inverse (other hdrops)
      simp only [opens, marksOf_within_some, Option.any_some]
      rw [marks, statements_marks o body main, hrest]
  | embed name args =>
    rw [statement] at h
    obtain ⟨_, _, _, -, -, -, -, hmarks⟩ := inclusion_eq_ok h
    rw [sites, marksOf_here, hmarks]

theorem statements_marks (o : Options) (body : List Statement) {scopes : List Scope}
    {chained : Bool} {log : Log} (h : statements o body scopes chained = ⟨log, .ok ()⟩) :
    log.marks = marksOf scopes (sitesOfBody o body) := by
  cases body with
  | nil =>
    rw [statements] at h
    rw [(Step.pure_eq_ok.mp h).1]
    rfl
  | cons s rest =>
    obtain ⟨first, second, hfirst, hsecond, rfl⟩ := statements_cons_eq_ok h
    rw [sitesOfBody, marksOf_append, Log.append_marks, statement_marks o s hfirst,
      statements_marks o rest hsecond]

theorem inverse_marks (o : Options) (inverse : Option Program) {scopes : List Scope} {log : Log}
    (h : InverseRan o scopes inverse log) :
    log.marks = marksOf scopes (sitesOfInverse o inverse) := by
  cases inverse with
  | none =>
    cases h with
    | none marks => exact marks
  | some program =>
    obtain ⟨body, blockParams⟩ := program
    cases h with
    | some main marks => exact marks.trans (statements_marks o body main)

end

/-- The body of the block has been converted in its scope, and the site is one of it. -/
def Opening.Holds (o : Options) (outer : List Scope) (site : Site) : Opening → Prop
  | loop args program =>
    site ∈ sitesOfBody o program.body ∧
      ∃ log, statements o program.body ((loop args program).scope outer :: outer) false =
        ⟨log, .ok ()⟩
  | entry .. => True

/-- All blocks around a site hold it, and their tags are among the pieces; for a site of a
program inside `scopes`. -/
def Site.Held (o : Options) (scopes : List Scope) (pieces : List Piece) (site : Site) : Prop :=
  ∀ inner opening outer, site.trail = inner ++ opening :: outer →
    opening.Holds o (enter scopes outer) ⟨inner, site.path⟩ ∧
      opening.header o (enter scopes outer) ∈ pieces

section
variable {o : Options} {scopes : List Scope} {pieces : List Piece} {site : Site}

theorem Site.held_here (path : Path) : (here path).Held o scopes pieces := by
  intro inner opening outer h
  simp [here] at h

theorem Site.Held.mono {more : List Piece} (h : site.Held o scopes pieces) (hsub : pieces ⊆ more) :
    site.Held o scopes more := by
  intro inner opening outer htrail
  obtain ⟨hholds, hheader⟩ := h inner opening outer htrail
  exact ⟨hholds, hsub hheader⟩

/-- Going out of a block, the block is added to those that hold the site. -/
theorem Site.Held.within {opening : Opening}
    (h : site.Held o (opening.scope scopes :: scopes) pieces)
    (hholds : opening.Holds o scopes site) (hheader : opening.header o scopes ∈ pieces) :
    (site.within (some opening)).Held o scopes pieces := by
  intro inner middle outer htrail
  simp only [Site.within, Option.toList_some] at htrail
  -- The block that was left is the outermost; any other lies inside it.
  rcases List.eq_nil_or_concat outer with rfl | ⟨front, last, rfl⟩
  · obtain ⟨hinner, hmiddle⟩ := List.append_inj' htrail rfl
    cases hmiddle
    cases hinner
    exact ⟨hholds, hheader⟩
  · rw [List.concat_eq_append, ← List.cons_append, ← List.append_assoc] at htrail
    obtain ⟨hfront, hlast⟩ := List.append_inj' htrail rfl
    cases hlast
    have hentered := h inner middle front hfront
    rw [List.concat_eq_append, enter_append]
    exact hentered

theorem Opening.holds_of_of? {helper : Path} {args : Arguments} {program : Program}
    {opening : Opening} {log : Log}
    (opens : of? helper args program = some opening) (hsite : site ∈ sitesOfBody o program.body)
    (main : statements o program.body (opening.scope scopes :: scopes) false = ⟨log, .ok ()⟩) :
    opening.Holds o scopes site := by
  cases opening with
  | entry collection key name => trivial
  | loop args' program' =>
    unfold of? at opens
    split at opens
    · cases opens
      exact ⟨hsite, log, main⟩
    · split at opens
      · simp at opens
      · cases opens

end

mutual

/-- The blocks around the sites of a statement hold them and have written their tags. -/
theorem statement_holds (o : Options) (s : Statement) {scopes : List Scope} {chained : Bool}
    {log : Log} (h : statement o s scopes chained = ⟨log, .ok ()⟩) :
    ∀ site ∈ sites o s, site.Held o scopes log.pieces := by
  intro site hsite
  cases s with
  | content text => cases hsite
  | comment text => cases hsite
  | mustache head args escaped =>
    rw [sites] at hsite
    obtain ⟨path, -, rfl⟩ := List.mem_map.mp hsite
    exact Site.held_here path
  | embed name args =>
    rw [sites] at hsite
    obtain ⟨path, -, rfl⟩ := List.mem_map.mp hsite
    exact Site.held_here path
  | block helper args program inverse =>
    obtain ⟨body, blockParams⟩ := program
    rw [sites, List.mem_append, List.mem_append] at hsite
    cases (statement_block_ran h).blockRan with
    | enclosed closed main other _ written =>
      obtain ⟨hbody, hrest⟩ := List.append_subset.mp written.subset
      rw [closed] at hsite
      rcases hsite with (hsite | hsite) | hsite
      · obtain ⟨path, -, rfl⟩ := List.mem_map.mp hsite
        exact Site.held_here path
      · obtain ⟨found, hfound, rfl⟩ := List.mem_map.mp hsite
        have hheld := statements_hold o body main found hfound
        simpa [Site.within] using hheld.mono hbody
      · exact (inverse_holds o inverse other site hsite).mono hrest
    | @opened opening _ _ _ opens main dropped other _ written =>
      obtain ⟨hheader, hparts⟩ := List.cons_subset.mp written.subset
      obtain ⟨hbody, hrest⟩ := List.append_subset.mp hparts
      rw [opens] at hsite
      rcases hsite with (hsite | hsite) | hsite
      · obtain ⟨path, -, rfl⟩ := List.mem_map.mp hsite
        exact Site.held_here path
      · obtain ⟨found, hfound, rfl⟩ := List.mem_map.mp hsite
        have hheld := statements_hold o body main found hfound
        exact (hheld.mono hbody).within (Opening.holds_of_of? opens hfound main) hheader
      · cases hdrops : opening.dropsInverse with
        | true => simp [hdrops] at hsite
        | false =>
          simp only [Option.any_some, hdrops, Bool.false_eq_true, if_false] at hsite
          exact (inverse_holds o inverse (other hdrops) site hsite).mono hrest

theorem statements_hold (o : Options) (body : List Statement) {scopes : List Scope}
    {chained : Bool} {log : Log} (h : statements o body scopes chained = ⟨log, .ok ()⟩) :
    ∀ site ∈ sitesOfBody o body, site.Held o scopes log.pieces := by
  intro site hsite
  cases body with
  | nil => cases hsite
  | cons s rest =>
    obtain ⟨first, second, hfirst, hsecond, rfl⟩ := statements_cons_eq_ok h
    rw [sitesOfBody, List.mem_append] at hsite
    rcases hsite with hsite | hsite
    · apply (statement_holds o s hfirst site hsite).mono
      simp [Log.pieces]
    · apply (statements_hold o rest hsecond site hsite).mono
      simp [Log.pieces]

theorem inverse_holds (o : Options) (inverse : Option Program) {scopes : List Scope} {log : Log}
    (h : InverseRan o scopes inverse log) :
    ∀ site ∈ sitesOfInverse o inverse, site.Held o scopes log.pieces := by
  intro site hsite
  cases inverse with
  | none => cases hsite
  | some program =>
    obtain ⟨body, blockParams⟩ := program
    cases h with
    | some main marks written =>
      exact (statements_hold o body main site hsite).mono written.subset

end

end Stencil.Conversion
