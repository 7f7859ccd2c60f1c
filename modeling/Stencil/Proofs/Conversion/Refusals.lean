import Stencil.Proofs.Conversion.Sites
import Stencil.Proofs.Handlebars.Print

/-!
# Refused programs

A conversion visits the statements of a program in the order of the source, each
in the scopes of the blocks around it. Two statements are refused: one that
interpolates a written value, and, with strict partials, one that hands a context
to a partial. A program is refused exactly when a statement that is visited is,
and the first one decides how.
-/

namespace Stencil.Conversion

open Handlebars (Path Expr Arguments Statement Program AllBody AllInverse)
open Django (Piece Fragment)

namespace Step

variable {α β : Type}

/-- Why a step gives no result, if it gives none. -/
def refusal? (x : Step α) : Option Refusal :=
  match x.result with
  | .ok _ => none
  | .error refusal => some refusal

@[simp] theorem refusal?_pure (a : α) : (pure a : Step α).refusal? = none := rfl

@[simp] theorem refusal?_write (f : Fragment) : (write f).refusal? = none := rfl

@[simp] theorem refusal?_emit (p : Piece) : (emit p).refusal? = none := rfl

@[simp] theorem refusal?_report (d : Diagnostic) : (report d).refusal? = none := rfl

@[simp] theorem refusal?_count : count.refusal? = none := rfl

@[simp] theorem refusal?_refuse (r : Refusal) : (refuse r : Step α).refusal? = some r := rfl

@[simp] theorem refusal?_gather (x : Step Unit) : x.gather.refusal? = x.refusal? := by
  obtain ⟨log, result⟩ := x
  cases result <;> rfl

@[simp] theorem refusal?_gatherWithin (depth : Nat) (x : Step Unit) :
    (x.gatherWithin depth).refusal? = x.refusal? := by
  obtain ⟨log, result⟩ := x
  cases result <;> rfl

/-- The first refusal of a sequence counts. The second step may depend on what the first one
gives, but not in whether and why it is refused. -/
theorem refusal?_bind {x : Step α} {f : α → Step β} {first second : Option Refusal}
    (hx : x.refusal? = first) (hf : ∀ a, (f a).refusal? = second) :
    (x >>= f).refusal? = first.or second := by
  obtain ⟨log, result⟩ := x
  cases result with
  | ok a =>
    cases hx
    exact hf a
  | error refusal =>
    cases hx
    rfl

/-- Behind a step that is not refused, the rest of a sequence counts. -/
theorem refusal?_behind {x : Step α} {f : α → Step β} {second : Option Refusal}
    (hx : x.refusal? = none) (hf : ∀ a, (f a).refusal? = second) :
    (x >>= f).refusal? = second :=
  refusal?_bind hx hf

/-- Where the rest depends on the text that was read, it is the text of the first step. -/
theorem refusal?_bind_text {x : Step String} {f : String → Step β} (hx : x.refusal? = none) :
    (x >>= f).refusal? = (f x.text).refusal? := by
  obtain ⟨log, result⟩ := x
  cases result with
  | ok text => rfl
  | error refusal => cases hx

end Step

section
variable (scopes : List Scope)

theorem reference_refusal? (path : Path) : (reference scopes path).refusal? = none := by
  unfold reference
  cases loopVariable? path <;> rfl

theorem argument_refusal? (e : Expr) : (argument scopes e).refusal? = none := by
  cases e with
  | path path => exact reference_refusal? scopes path
  | _ => rfl

theorem argument?_refusal? (e : Option Expr) : (argument? scopes e).refusal? = none := by
  cases e with
  | none => rfl
  | some e => exact argument_refusal? scopes e

theorem operand_refusal? (e : Expr) : (operand scopes e).refusal? = none := by
  cases e with
  | path path => exact reference_refusal? scopes path
  | _ => rfl

theorem operands_refusal? (params : List Expr) : (operands scopes params).refusal? = none := by
  induction params with
  | nil => rfl
  | cons e rest ih =>
    apply Step.refusal?_behind (operand_refusal? scopes e)
    intro word
    exact Step.refusal?_behind ih fun words => Step.refusal?_pure (word :: words)

theorem condition_refusal? (e : Option Expr) : (condition scopes e).refusal? = none := by
  cases e with
  | none => rfl
  | some e =>
    cases e with
    | path path => exact reference_refusal? scopes path
    | call helper params hash =>
      rw [condition]
      split
      · exact Step.refusal?_behind (operands_refusal? scopes params) fun words =>
          Step.refusal?_pure (" ".intercalate words)
      · rfl
    | _ => rfl

theorem collection_refusal? (e : Option Expr) : (collection scopes e).refusal? = none := by
  cases e with
  | none => rfl
  | some e =>
    cases e with
    | path path => exact reference_refusal? scopes path
    | _ => rfl

theorem icon_refusal? (o : Options) (args : Arguments) : (icon o scopes args).refusal? = none := by
  have hparams (params : List Expr) : (iconArguments scopes params).refusal? = none := by
    induction params with
    | nil => rfl
    | cons e rest ih =>
      apply Step.refusal?_behind (argument_refusal? scopes e)
      intro text
      exact Step.refusal?_behind ih fun texts => Step.refusal?_pure (text :: texts)
  have hattribute (key : String) (value : Expr) : (attributeText o key value).refusal? = none := by
    unfold attributeText
    split <;> rfl
  have hhash (hash : List (String × Expr)) : (iconAttributes o hash).refusal? = none := by
    induction hash with
    | nil => rfl
    | cons entry rest ih =>
      apply Step.refusal?_behind (hattribute entry.1 entry.2)
      intro text
      exact Step.refusal?_behind ih fun texts => Step.refusal?_pure _
  apply Step.refusal?_behind (hparams args.params)
  intro arguments
  exact Step.refusal?_behind (hhash args.hash) fun attributes => Step.refusal?_emit _

theorem inclusionName_refusal? (o : Options) (name : Expr) :
    (inclusionName o scopes name).refusal? = none := by
  unfold inclusionName
  split
  · rfl
  · rfl
  · split
    · split
      · exact reference_refusal? scopes _
      · rfl
      · rfl
      · rfl
    · rfl
  · rfl

theorem bindings_refusal? (hash : List (String × Expr)) :
    (bindings scopes hash).refusal? = none := by
  induction hash with
  | nil => rfl
  | cons entry rest ih =>
    obtain ⟨key, e⟩ := entry
    have hvalue : ∀ value ∈ bindingValue? scopes e, value.refusal? = none := by
      intro value hvalue
      cases e with
      | path path =>
        cases hvalue
        exact reference_refusal? scopes path
      | string s => cases hvalue; rfl
      | number n => cases hvalue; rfl
      | boolean b => cases hvalue; rfl
      | _ => cases hvalue
    rw [bindings]
    split
    · next value hsome =>
      apply Step.refusal?_behind (hvalue value hsome)
      intro text
      exact Step.refusal?_behind ih fun more => Step.refusal?_pure _
    · exact Step.refusal?_behind (Step.refusal?_report _) fun _ => ih

end

/-- A statement and the scopes that it stands in. -/
structure Visit where
  scopes : List Scope
  statement : Statement

def inside (scopes : List Scope) : Option Opening → List Scope
  | none => scopes
  | some opening => opening.scope scopes :: scopes

mutual

/-- The statements that are visited for a statement: itself, then the program and the inverse of
a block. The inverse of a lookup is not visited. -/
def visits (scopes : List Scope) : Statement → List Visit
  | .block helper args ⟨body, blockParams⟩ inverse =>
    let opening := Opening.of? helper args ⟨body, blockParams⟩
    ⟨scopes, .block helper args ⟨body, blockParams⟩ inverse⟩ ::
      (visitsOfBody (inside scopes opening) body ++
        if helper.spelling = "with" ∧ (lookup? args blockParams).isSome then []
        else visitsOfInverse scopes inverse)
  | .content text => [⟨scopes, .content text⟩]
  | .comment text => [⟨scopes, .comment text⟩]
  | .mustache head args escaped => [⟨scopes, .mustache head args escaped⟩]
  | .embed name args => [⟨scopes, .embed name args⟩]

def visitsOfBody (scopes : List Scope) : List Statement → List Visit
  | [] => []
  | s :: rest => visits scopes s ++ visitsOfBody scopes rest

def visitsOfInverse (scopes : List Scope) : Option Program → List Visit
  | none => []
  | some ⟨body, _⟩ => visitsOfBody scopes body

end

mutual

/-- What holds of all statements holds of those that are visited. -/
theorem forall_visits {P : Statement → Prop} (scopes : List Scope) :
    ∀ s : Statement, s.All P → ∀ visit ∈ visits scopes s, P visit.statement
  | .block helper args ⟨body, blockParams⟩ inverse, ⟨hblock, hbody, hinverse⟩, visit, hvisit => by
    rw [visits, List.mem_cons, List.mem_append] at hvisit
    rcases hvisit with rfl | hvisit | hvisit
    · exact hblock
    · exact forall_visitsOfBody _ body hbody visit hvisit
    · split at hvisit
      · cases hvisit
      · exact forall_visitsOfInverse _ inverse hinverse visit hvisit
  | .content text, h, visit, hvisit => by
    rw [visits] at hvisit
    cases List.mem_singleton.mp hvisit
    exact h
  | .comment text, h, visit, hvisit => by
    rw [visits] at hvisit
    cases List.mem_singleton.mp hvisit
    exact h
  | .mustache head args escaped, h, visit, hvisit => by
    rw [visits] at hvisit
    cases List.mem_singleton.mp hvisit
    exact h
  | .embed name args, h, visit, hvisit => by
    rw [visits] at hvisit
    cases List.mem_singleton.mp hvisit
    exact h

theorem forall_visitsOfBody {P : Statement → Prop} (scopes : List Scope) :
    ∀ body : List Statement, AllBody P body → ∀ visit ∈ visitsOfBody scopes body, P visit.statement
  | [], _, visit, hvisit => by
    rw [visitsOfBody] at hvisit
    cases hvisit
  | s :: body, h, visit, hvisit => by
    rw [visitsOfBody, List.mem_append] at hvisit
    exact hvisit.elim (forall_visits scopes s h.1 visit) (forall_visitsOfBody scopes body h.2 visit)

theorem forall_visitsOfInverse {P : Statement → Prop} (scopes : List Scope) :
    ∀ inverse : Option Program, AllInverse P inverse →
      ∀ visit ∈ visitsOfInverse scopes inverse, P visit.statement
  | none, _, visit, hvisit => by
    rw [visitsOfInverse] at hvisit
    cases hvisit
  | some ⟨body, _⟩, h, visit, hvisit => by
    rw [visitsOfInverse] at hvisit
    exact forall_visitsOfBody scopes body h visit hvisit

end

/-- The statements that are refused, each with its reason. -/
inductive Fatal (o : Options) : Visit → Refusal → Prop
  | literal {scopes : List Scope} {head : Expr} {args : Arguments} {escaped : Bool}
      (written : ∀ path, head ≠ .path path) :
      Fatal o ⟨scopes, .mustache head args escaped⟩ (.literalInterpolation head.asWritten)
  | context {scopes : List Scope} {name first : Expr} {args : Arguments}
      (strict : o.strictPartials = true) (passed : args.params.head? = some first) :
      Fatal o ⟨scopes, .embed name args⟩
        (.contextPassed name.asWritten (argument scopes first).text)

def Visit.refusal? (o : Options) (v : Visit) : Option Refusal :=
  match v.statement with
  | .mustache (.path _) _ _ => none
  | .mustache head _ _ => some (.literalInterpolation head.asWritten)
  | .embed name args =>
    if o.strictPartials then
      args.params.head?.map fun first =>
        .contextPassed name.asWritten (argument v.scopes first).text
    else none
  | _ => none

theorem Visit.refusal?_eq_some {o : Options} {v : Visit} {r : Refusal} :
    v.refusal? o = some r ↔ Fatal o v r := by
  obtain ⟨scopes, s⟩ := v
  constructor
  · intro h
    cases s with
    | mustache head args escaped =>
      cases head with
      | path path => cases h
      | _ =>
        cases h
        exact .literal (by simp)
    | embed name args =>
      simp only [Visit.refusal?] at h
      split at h
      · next strict =>
        obtain ⟨first, hfirst, rfl⟩ := Option.map_eq_some_iff.mp h
        exact .context strict hfirst
      · cases h
    | _ => cases h
  · intro h
    cases h with
    | @literal _ head _ _ written =>
      cases head with
      | path path => exact absurd rfl (written path)
      | _ => rfl
    | context strict passed => simp [Visit.refusal?, strict, passed]

section
variable {scopes : List Scope} {inverse : Option Branch} {main rest : Option Refusal}

/-- The inverse of a block is refused for this reason, whether or not it continues a chain. -/
def InverseRefusal (scopes : List Scope) (inverse : Option Branch) (rest : Option Refusal) : Prop :=
  ∀ chained, (inverse.bind fun other => (other.convert scopes chained).refusal?) = rest

theorem alternative_refusal? (h : InverseRefusal scopes inverse rest) (mark : Piece) :
    (alternative scopes mark inverse).refusal? = rest := by
  rw [← h false]
  cases inverse with
  | none => rfl
  | some other =>
    rw [alternative, Step.refusal?_bind (Step.refusal?_gather _) fun body =>
      Step.refusal?_behind (Step.refusal?_emit mark) fun _ => Step.refusal?_write body]
    exact Option.or_none

theorem chainedAlternative_refusal? (h : InverseRefusal scopes inverse rest) :
    (chainedAlternative scopes inverse).refusal? = rest := by
  cases inverse with
  | none => exact h false
  | some other =>
    have hwrite (body : Fragment) : (if other.loneIf then Step.write body
        else do
          Step.emit .elseMark
          Step.write body).refusal? = none := by
      split
      · exact Step.refusal?_write body
      · exact Step.refusal?_behind (Step.refusal?_emit _) fun _ => Step.refusal?_write body
    rw [← h other.loneIf, chainedAlternative, Step.refusal?_bind (Step.refusal?_gather _) hwrite]
    exact Option.or_none

/-- A body that has been gathered, the inverse behind it and a closing step. -/
theorem enclosed_refusal? {α : Type} {body : Step α} {write : α → Step Unit}
    {other closing : Step Unit} (hbody : body.refusal? = main)
    (hwrite : ∀ a, (write a).refusal? = none) (hother : other.refusal? = rest)
    (hclosing : closing.refusal? = none) :
    (do
      let a ← body
      write a
      other
      closing).refusal? = main.or rest := by
  apply Step.refusal?_bind hbody
  intro a
  apply Step.refusal?_behind (hwrite a)
  intro _
  rw [Step.refusal?_bind hother fun _ => hclosing, Option.or_none]

variable {b : Block}

theorem ifBlock_refusal? (chained : Bool) (hmain : (b.main.convert scopes false).refusal? = main)
    (hrest : InverseRefusal scopes b.inverse rest) :
    (ifBlock scopes chained b).refusal? = main.or rest := by
  have hclosing : (if chained then pure () else Step.emit .endIf : Step Unit).refusal? = none := by
    cases chained <;> rfl
  apply Step.refusal?_behind (condition_refusal? scopes _)
  intro test
  apply Step.refusal?_behind Step.refusal?_count
  intro _
  apply Step.refusal?_behind (Step.refusal?_emit _)
  intro _
  exact enclosed_refusal? ((Step.refusal?_gather _).trans hmain) Step.refusal?_write
    (chainedAlternative_refusal? hrest) hclosing

theorem conditionalBranches_refusal? (hmain : (b.main.convert scopes false).refusal? = main)
    (hrest : InverseRefusal scopes b.inverse rest) :
    (conditionalBranches scopes b).refusal? = main.or rest :=
  enclosed_refusal? ((Step.refusal?_gather _).trans hmain) Step.refusal?_write
    (alternative_refusal? hrest _) (Step.refusal?_emit _)

theorem unlessBlock_refusal? (hmain : (b.main.convert scopes false).refusal? = main)
    (hrest : InverseRefusal scopes b.inverse rest) :
    (unlessBlock scopes b).refusal? = main.or rest := by
  apply Step.refusal?_behind (condition_refusal? scopes _)
  intro test
  apply Step.refusal?_behind Step.refusal?_count
  intro _
  exact Step.refusal?_behind (Step.refusal?_emit _) fun _ =>
    conditionalBranches_refusal? hmain hrest

theorem equalBlock_refusal? (hmain : (b.main.convert scopes false).refusal? = main)
    (hrest : InverseRefusal scopes b.inverse rest) :
    (equalBlock scopes b).refusal? = main.or rest := by
  apply Step.refusal?_behind (argument?_refusal? scopes _)
  intro left
  apply Step.refusal?_behind Step.refusal?_count
  intro _
  exact Step.refusal?_behind (Step.refusal?_emit _) fun _ =>
    conditionalBranches_refusal? hmain hrest

theorem keptBlock_refusal? (hmain : (b.main.convert scopes false).refusal? = main)
    (hrest : InverseRefusal scopes b.inverse rest) :
    (keptBlock scopes b).refusal? = main.or rest :=
  Step.refusal?_behind (Step.refusal?_emit _) fun _ =>
    enclosed_refusal? ((Step.refusal?_gather _).trans hmain) Step.refusal?_write
      (alternative_refusal? hrest _) (Step.refusal?_emit _)

/-- The inverse of a lookup is dropped, so nothing in it is refused. -/
theorem lookupBlock_refusal? {collection key : Expr} {name : String}
    (hmain : (b.main.convert ({ names := [name] } :: scopes) false).refusal? = main) :
    (lookupBlock scopes b collection key name).refusal? = main := by
  apply Step.refusal?_behind (argument_refusal? scopes collection)
  intro items
  apply Step.refusal?_behind (argument_refusal? scopes key)
  intro text
  apply Step.refusal?_behind (Step.refusal?_emit _)
  intro _
  rw [← Option.or_none (o := main)]
  apply Step.refusal?_bind ((Step.refusal?_gatherWithin scopes.length _).trans hmain)
  intro gathered
  apply Step.refusal?_behind (Step.refusal?_write gathered.1)
  intro _
  split <;> rfl

theorem eachBlock_refusal?
    (hmain : (b.main.convert
      ({ names := loopNames b.blockParams (collection scopes b.args.params[0]?).text } :: scopes)
      false).refusal? = main)
    (hrest : InverseRefusal scopes b.inverse rest) :
    (eachBlock scopes b).refusal? = main.or rest := by
  rw [eachBlock, Step.refusal?_bind_text (collection_refusal? scopes b.args.params[0]?)]
  apply Step.refusal?_bind ((Step.refusal?_gatherWithin scopes.length _).trans hmain)
  intro gathered
  apply Step.refusal?_behind (Step.refusal?_emit _)
  intro _
  apply Step.refusal?_behind (Step.refusal?_write gathered.1)
  intro _
  rw [Step.refusal?_bind (alternative_refusal? hrest _) fun _ => Step.refusal?_emit _,
    Option.or_none]

end

section
variable {o : Options} {helper : Path} {args : Arguments} {program : Program}
variable {inverse : Option Program} {scopes : List Scope} {main rest : Option Refusal}

/-- A block is refused where its program is, and otherwise where its inverse is, unless that is
dropped. -/
theorem block_refusal? (chained : Bool)
    (hmain : (statements o program.body
      (inside scopes (Opening.of? helper args program)) false).refusal? = main)
    (hrest : InverseRefusal scopes (branch? o inverse) rest) :
    (block scopes chained (blockOf o helper args program inverse)).refusal? =
      main.or (if helper.spelling = "with" ∧ (lookup? args program.blockParams).isSome then none
        else rest) := by
  rw [← branch_convert] at hmain
  have hkept (hscopes : Opening.of? helper args program = none) :
      ((branch o program).convert scopes false).refusal? = main := by
    rw [hscopes] at hmain
    exact hmain
  unfold block
  rw [blockOf_helper]
  split
  · next hif =>
    have hscopes : Opening.of? helper args program = none :=
      Opening.of?_none (by simp [hif]) (by simp [hif])
    rw [if_neg (by simp [hif])]
    exact ifBlock_refusal? chained (hkept hscopes) hrest
  next hif =>
  split
  · next hunless =>
    have hscopes : Opening.of? helper args program = none :=
      Opening.of?_none (by simp [hunless]) (by simp [hunless])
    rw [if_neg (by simp [hunless])]
    exact unlessBlock_refusal? (hkept hscopes) hrest
  next hunless =>
  split
  · next heq =>
    have hname : helper.spelling ≠ "each" ∧ helper.spelling ≠ "with" := by
      rcases (by simpa using heq : helper.spelling = "eq" ∨ helper.spelling = "is") with h | h
      · simp [h]
      · simp [h]
    have hscopes : Opening.of? helper args program = none :=
      Opening.of?_none hname.1 fun h => absurd h hname.2
    rw [if_neg (by simp [hname.2])]
    exact equalBlock_refusal? (hkept hscopes) hrest
  next heq =>
  split
  · next hwith =>
    unfold withBlock
    rw [blockOf_args, blockOf_blockParams]
    cases hshape : lookup? args program.blockParams with
    | none =>
      have hscopes : Opening.of? helper args program = none :=
        Opening.of?_none (by simp [hwith]) fun _ => hshape
      rw [if_neg (by simp)]
      exact Step.refusal?_behind (Step.refusal?_report _) fun _ =>
        keptBlock_refusal? (hkept hscopes) hrest
    | some entry =>
      obtain ⟨collection, key, name⟩ := entry
      rw [if_pos ⟨hwith, rfl⟩, Option.or_none]
      rw [Opening.of?_entry hwith hshape] at hmain
      exact lookupBlock_refusal? hmain
  next hwith =>
  have hother : (if helper.spelling = "with" ∧ (lookup? args program.blockParams).isSome then none
      else rest) = rest :=
    if_neg fun h => hwith h.1
  rw [hother]
  split
  · next heach =>
    rw [Opening.of?_loop heach] at hmain
    exact eachBlock_refusal? hmain hrest
  · next heach =>
    have hscopes : Opening.of? helper args program = none :=
      Opening.of?_none heach fun h => absurd h hwith
    exact Step.refusal?_behind (Step.refusal?_report _) fun _ =>
      keptBlock_refusal? (hkept hscopes) hrest

end

theorem mustache_refusal? (o : Options) (scopes : List Scope) (head : Expr) (args : Arguments)
    (escaped : Bool) :
    (mustache o scopes head args escaped).refusal? =
      Visit.refusal? o ⟨scopes, .mustache head args escaped⟩ := by
  cases head with
  | path path =>
    have hvalue : (do
        let value ← reference scopes path
        Step.emit (.output value (!escaped))).refusal? = none :=
      Step.refusal?_behind (reference_refusal? scopes path) fun _ => Step.refusal?_emit _
    simp only [mustache]
    split
    · exact icon_refusal? scopes o args
    · split
      · exact hvalue
      · exact Step.refusal?_behind (Step.refusal?_report _) fun _ => hvalue
  | _ => rfl

theorem contextBinding_refusal? (o : Options) (scopes : List Scope) (name : Expr)
    (args : Arguments) :
    (contextBinding o scopes name args.params).refusal? =
      Visit.refusal? o ⟨scopes, .embed name args⟩ := by
  obtain ⟨params, hash⟩ := args
  simp only [Visit.refusal?]
  cases params with
  | nil => simp [contextBinding]
  | cons first rest =>
    rw [contextBinding, Step.refusal?_bind_text (argument_refusal? scopes first)]
    split <;> rfl

theorem inclusion_refusal? (o : Options) (scopes : List Scope) (name : Expr) (args : Arguments) :
    (inclusion o scopes name args).refusal? = Visit.refusal? o ⟨scopes, .embed name args⟩ := by
  apply Step.refusal?_behind (inclusionName_refusal? scopes o name)
  intro file
  rw [Step.refusal?_bind (contextBinding_refusal? o scopes name args) fun context =>
    Step.refusal?_behind (bindings_refusal? scopes args.hash) fun named => Step.refusal?_emit _]
  exact Option.or_none

mutual

/-- A statement is refused for the reason of the first one that is visited and refused. -/
theorem statement_refusal? (o : Options) (s : Statement) (scopes : List Scope) (chained : Bool) :
    (statement o s scopes chained).refusal? = (visits scopes s).findSome? (Visit.refusal? o) := by
  cases s with
  | content text => rfl
  | comment text => rfl
  | mustache head args escaped =>
    rw [statement, mustache_refusal?, visits, List.findSome?_singleton]
  | embed name args =>
    rw [statement, inclusion_refusal?, visits, List.findSome?_singleton]
  | block helper args program inverse =>
    obtain ⟨body, blockParams⟩ := program
    have hmain := statements_refusal? o body
      (inside scopes (Opening.of? helper args ⟨body, blockParams⟩)) false
    have hblock : (block scopes chained
        (blockOf o helper args ⟨body, blockParams⟩ inverse)).refusal? = _ :=
      block_refusal? chained hmain (inverse_refusal? o inverse scopes)
    rw [statement, visits, List.findSome?_cons, List.findSome?_append]
    refine hblock.trans ?_
    congr 1
    split <;> rfl

theorem statements_refusal? (o : Options) (body : List Statement) (scopes : List Scope)
    (chained : Bool) :
    (statements o body scopes chained).refusal? =
      (visitsOfBody scopes body).findSome? (Visit.refusal? o) := by
  cases body with
  | nil => rfl
  | cons s rest =>
    rw [statements, visitsOfBody, List.findSome?_append]
    exact Step.refusal?_bind (statement_refusal? o s scopes chained) fun _ =>
      statements_refusal? o rest scopes chained

theorem inverse_refusal? (o : Options) (inverse : Option Program) (scopes : List Scope) :
    InverseRefusal scopes (branch? o inverse)
      ((visitsOfInverse scopes inverse).findSome? (Visit.refusal? o)) := by
  intro chained
  cases inverse with
  | none => rfl
  | some program =>
    obtain ⟨body, blockParams⟩ := program
    exact statements_refusal? o body scopes chained

end

end Stencil.Conversion

namespace Stencil.Document

open Handlebars (Path Expr Program)
open Conversion (Visit Fatal Refusal visitsOfBody)

theorem ofProgram_refusal? (o : Options) (p : Program) :
    (∀ r, ofProgram o p = .error r ↔
      (visitsOfBody [] p.body).findSome? (Visit.refusal? o) = some r) ∧
    ((∃ doc, ofProgram o p = .ok doc) ↔
      (visitsOfBody [] p.body).findSome? (Visit.refusal? o) = none) := by
  rw [← Conversion.statements_refusal? o p.body [] false, ofProgram, Conversion.program,
    Conversion.Step.refusal?]
  cases (Conversion.statements o p.body [] false).result with
  | ok u => simp [Except.map]
  | error refusal => simp [Except.map, eq_comm]

/-- A program is refused exactly when a statement that is visited is refused, and the first such
statement gives the reason; all other programs have a document. Unless partials are strict, only
interpolations are refused. -/
theorem refused_iff_first_fatal (o : Options) (p : Program) :
    (∀ r, ofProgram o p = .error r ↔
      ∃ before visit after, visitsOfBody [] p.body = before ++ visit :: after ∧ Fatal o visit r ∧
        ∀ earlier ∈ before, ∀ other, ¬ Fatal o earlier other) ∧
    ((∃ doc, ofProgram o p = .ok doc) ↔
      ∀ visit ∈ visitsOfBody [] p.body, ∀ r, ¬ Fatal o visit r) ∧
    (o.strictPartials = false → ∀ r, ofProgram o p = .error r →
      ∃ head : Expr, r = .literalInterpolation head.asWritten) := by
  obtain ⟨hrefused, hdocument⟩ := ofProgram_refusal? o p
  have hnone (visit : Visit) : visit.refusal? o = none ↔ ∀ r, ¬ Fatal o visit r := by
    simp only [← Visit.refusal?_eq_some, Option.eq_none_iff_forall_ne_some]
  refine ⟨?_, ?_, ?_⟩
  · intro r
    rw [hrefused, List.findSome?_eq_some_iff]
    simp only [Visit.refusal?_eq_some, hnone]
  · rw [hdocument, List.findSome?_eq_none_iff]
    simp only [hnone]
  · intro lenient r hr
    obtain ⟨visit, -, hvisit⟩ := List.exists_of_findSome?_eq_some ((hrefused r).mp hr)
    cases Visit.refusal?_eq_some.mp hvisit with
    | @literal _ head _ _ _ => exact ⟨head, rfl⟩
    | context strict _ =>
      rw [lenient] at strict
      cases strict

/-- A literal in the inverse of a lookup, a context that is passed in a loop, and a literal
behind them. -/
def contextInLoop : Program :=
  let path := fun name : String => Expr.path (.parse name)
  .ofBody [
    .block (.parse "with") { params := [.call (.parse "lookup") [path "m", path "k"] []] }
      ⟨[], ["n"]⟩ (some (.ofBody [.mustache (.string "dropped") {} true])),
    .block (.parse "each") { params := [path "items"] }
      (.ofBody [.embed (path "card.hbs") { params := [path "name"] }]) none,
    .mustache (.number "1") {} true]

theorem refused_contextInLoop :
    (ofProgram {} contextInLoop = .error (.contextPassed "card.hbs" "items_i.name") ∧
      ∃ before visit after, visitsOfBody [] contextInLoop.body = before ++ visit :: after ∧
        Fatal {} visit (.contextPassed "card.hbs" "items_i.name") ∧
        ∀ earlier ∈ before, ∀ other, ¬ Fatal {} earlier other) ∧
    ofProgram { strictPartials := false } contextInLoop = .error (.literalInterpolation "1") ∧
    ∃ head : Expr, Refusal.literalInterpolation "1" = .literalInterpolation head.asWritten := by
  have hstrict : ofProgram {} contextInLoop =
      .error (.contextPassed "card.hbs" "items_i.name") := by rfl
  have hlenient : ofProgram { strictPartials := false } contextInLoop =
      .error (.literalInterpolation "1") := by rfl
  exact ⟨⟨hstrict, ((refused_iff_first_fatal {} contextInLoop).1 _).mp hstrict⟩, hlenient,
    (refused_iff_first_fatal { strictPartials := false } contextInLoop).2.2 rfl _ hlenient⟩

end Stencil.Document
