import Stencil.Proofs.Conversion.Run

/-!
# The references that a tag reads

The head of a tag is read without writing anything: its references are resolved
in the scopes around it, and all it leaves is the marks of those that ask for a
key. For every kind of head the references are listed here in the order in
which they are resolved. The three loop variables are not among them.
-/

namespace Stencil.Conversion

open Handlebars (Path Expr Arguments)
open Django (Piece)

def markOf (scopes : List Scope) (path : Path) : List Nat :=
  (Scopes.resolve scopes path).mark.toList

/-- A step that writes nothing and, if it succeeds, has resolved these references. -/
def Reads {α : Type} (scopes : List Scope) (paths : List Path) (x : Step α) : Prop :=
  ∀ (log : Log) (a : α), x = ⟨log, .ok a⟩ →
    log.fragments = [] ∧ log.marks = paths.flatMap (markOf scopes)

namespace Reads

variable {α β : Type} {scopes : List Scope} {paths more : List Path}

theorem pure (a : α) : Reads scopes [] (pure a : Step α) := by
  intro log b h
  rw [(Step.pure_eq_ok.mp h).1]
  exact ⟨rfl, rfl⟩

theorem report (d : Diagnostic) : Reads scopes [] (Step.report d) := by
  intro log u h
  rw [Step.report_eq_ok.mp h]
  exact ⟨rfl, rfl⟩

theorem refuse (r : Refusal) : Reads scopes paths (Step.refuse r : Step α) := by
  intro log a h
  exact absurd h Step.refuse_ne_ok

theorem bind {x : Step α} {f : α → Step β} (hx : Reads scopes paths x)
    (hf : ∀ a, Reads scopes more (f a)) : Reads scopes (paths ++ more) (x >>= f) := by
  intro log b h
  obtain ⟨first, a, second, hfirst, hsecond, rfl⟩ := Step.bind_eq_ok.mp h
  obtain ⟨hf₁, hm₁⟩ := hx first a hfirst
  obtain ⟨hf₂, hm₂⟩ := hf a second b hsecond
  simp [hf₁, hm₁, hf₂, hm₂]

theorem map {x : Step α} (f : α → β) (hx : Reads scopes paths x) :
    Reads scopes paths (do let a ← x; Pure.pure (f a)) := by
  have h := hx.bind fun a => Reads.pure (f a)
  rwa [List.append_nil] at h

theorem after_report {x : Step α} (d : Diagnostic) (hx : Reads scopes paths x) :
    Reads scopes paths (do Step.report d; x) :=
  (Reads.report d).bind fun _ => hx

end Reads

/-- The references that one reference resolves: itself, unless it is a loop variable. -/
def referencePaths (path : Path) : List Path :=
  if (loopVariable? path).isSome then [] else [path]

def argumentPaths : Expr → List Path
  | .path path => referencePaths path
  | _ => []

def argumentPaths? : Option Expr → List Path
  | some e => argumentPaths e
  | none => []

def conditionPaths : Option Expr → List Path
  | some (.path path) => referencePaths path
  | some (.call helper params _) =>
    if helper.spelling = "condition" then params.flatMap argumentPaths else []
  | _ => []

def iconPaths (args : Arguments) : List Path :=
  args.params.flatMap argumentPaths

def inclusionNamePaths : Expr → List Path
  | .call helper params _ =>
    if helper.spelling = "lookup" then
      match params with
      | _ :: .path path :: _ => referencePaths path
      | _ => []
    else []
  | _ => []

def inclusionPaths (name : Expr) (args : Arguments) : List Path :=
  inclusionNamePaths name ++ argumentPaths? args.params.head? ++
    args.hash.flatMap fun binding => argumentPaths binding.2

def mustachePaths (o : Options) (head : Expr) (args : Arguments) : List Path :=
  match head with
  | .path path => if path.spelling = o.iconHelper then iconPaths args else referencePaths path
  | _ => []

section
variable (scopes : List Scope)

theorem reference_reads (path : Path) :
    Reads scopes (referencePaths path) (reference scopes path) := by
  unfold reference referencePaths
  cases loopVariable? path with
  | some name => exact Reads.pure name
  | none =>
    intro log text h
    cases h
    simp [markOf]

theorem argument_reads (e : Expr) : Reads scopes (argumentPaths e) (argument scopes e) := by
  cases e with
  | path path => exact reference_reads scopes path
  | _ => exact Reads.pure _

theorem argument?_reads (e : Option Expr) :
    Reads scopes (argumentPaths? e) (argument? scopes e) := by
  cases e with
  | none => exact Reads.pure unresolved
  | some e => exact argument_reads scopes e

theorem operand_reads (e : Expr) : Reads scopes (argumentPaths e) (operand scopes e) := by
  cases e with
  | path path => exact reference_reads scopes path
  | _ => exact Reads.pure _

theorem operands_reads (params : List Expr) :
    Reads scopes (params.flatMap argumentPaths) (operands scopes params) := by
  induction params with
  | nil => exact Reads.pure []
  | cons e rest ih =>
    rw [List.flatMap_cons]
    exact (operand_reads scopes e).bind fun word => ih.map (word :: ·)

theorem condition_reads (e : Option Expr) :
    Reads scopes (conditionPaths e) (condition scopes e) := by
  cases e with
  | none => exact (Reads.pure unresolved).after_report _
  | some e =>
    cases e with
    | path path => exact reference_reads scopes path
    | call helper params hash =>
      unfold condition conditionPaths
      by_cases hspelled : helper.spelling = "condition"
      · simp only [hspelled, if_true]
        exact (operands_reads scopes params).map _
      · simp only [hspelled, if_false]
        exact (Reads.pure unresolved).after_report _
    | _ => exact Reads.pure _

theorem collection_reads (e : Option Expr) :
    Reads scopes (argumentPaths? e) (collection scopes e) := by
  cases e with
  | none => exact (Reads.pure unresolved).after_report _
  | some e =>
    cases e with
    | path path => exact reference_reads scopes path
    | _ => exact (Reads.pure unresolved).after_report _

theorem iconArguments_reads (params : List Expr) :
    Reads scopes (params.flatMap argumentPaths) (iconArguments scopes params) := by
  induction params with
  | nil => exact Reads.pure []
  | cons e rest ih =>
    rw [List.flatMap_cons]
    exact (argument_reads scopes e).bind fun text => ih.map (text :: ·)

theorem iconAttributes_reads (o : Options) (hash : List (String × Expr)) :
    Reads scopes [] (iconAttributes o hash) := by
  induction hash with
  | nil => exact Reads.pure []
  | cons entry rest ih =>
    have htext : Reads scopes [] (attributeText o entry.1 entry.2) := by
      unfold attributeText
      split
      · exact Reads.pure _
      · exact (Reads.pure "?").after_report _
    exact htext.bind fun text => ih.map _

theorem inclusionName_reads (o : Options) (name : Expr) :
    Reads scopes (inclusionNamePaths name) (inclusionName o scopes name) := by
  have hcomputed : Reads scopes [] (computedName name) := (Reads.pure unresolved).after_report _
  cases name with
  | call helper params hash =>
    unfold inclusionName inclusionNamePaths
    by_cases hlookup : helper.spelling = "lookup"
    · simp only [hlookup, if_true]
      rcases params with _ | ⟨first, _ | ⟨second, rest⟩⟩
      · exact hcomputed
      · exact hcomputed
      · cases second with
        | path path => exact reference_reads scopes path
        | call => exact hcomputed
        | _ => exact Reads.pure _
    · simp only [hlookup, if_false]
      exact hcomputed
  | string s => exact Reads.pure _
  | path path => exact Reads.pure _
  | _ => exact hcomputed

theorem contextBinding_reads (o : Options) (name : Expr) (params : List Expr) :
    Reads scopes (argumentPaths? params.head?)
      (contextBinding o scopes name params) := by
  cases params with
  | nil => exact Reads.pure []
  | cons e rest =>
    have hcontext : ∀ context : String, Reads scopes []
        (if o.strictPartials then Step.refuse (.contextPassed name.asWritten context)
          else do
            Step.report (.contextPassed context name.asWritten)
            pure [(context, inQuotes "does-not-work")]) := by
      intro context
      split
      · exact Reads.refuse _
      · exact (Reads.pure _).after_report _
    have h := (argument_reads scopes e).bind hcontext
    rwa [List.append_nil] at h

theorem bindings_reads (hash : List (String × Expr)) :
    Reads scopes (hash.flatMap fun binding => argumentPaths binding.2) (bindings scopes hash) := by
  induction hash with
  | nil => exact Reads.pure []
  | cons entry rest ih =>
    obtain ⟨key, e⟩ := entry
    rw [List.flatMap_cons, bindings]
    cases e with
    | path path => exact (reference_reads scopes path).bind fun value => ih.map ((key, value) :: ·)
    | string s => exact (Reads.pure _).bind fun value => ih.map ((key, value) :: ·)
    | number n => exact (Reads.pure _).bind fun value => ih.map ((key, value) :: ·)
    | boolean b => exact (Reads.pure _).bind fun value => ih.map ((key, value) :: ·)
    | _ => exact ih.after_report _

end

section
variable {o : Options} {scopes : List Scope} {log : Log} {args : Arguments}

/-- A step that reads, followed by one that writes a piece. -/
theorem Reads.emit {α : Type} {paths : List Path} {x : Step α} {piece : α → Piece}
    (hx : Reads scopes paths x) (h : (do let a ← x; Step.emit (piece a)) = ⟨log, .ok ()⟩) :
    ∃ a, x.result = .ok a ∧ log.fragments = [[piece a]] ∧
      log.marks = paths.flatMap (markOf scopes) := by
  obtain ⟨first, a, second, hfirst, hsecond, rfl⟩ := Step.bind_eq_ok.mp h
  obtain ⟨hfragments, hmarks⟩ := hx first a hfirst
  refine ⟨a, by rw [hfirst], ?_, ?_⟩
  · simp [hfragments, Step.emit_eq_ok.mp hsecond]
  · simp [hmarks, Step.emit_eq_ok.mp hsecond]

theorem icon_eq_ok (h : icon o scopes args = ⟨log, .ok ()⟩) :
    ∃ arguments attributes, (iconArguments scopes args.params).result = .ok arguments ∧
      (iconAttributes o args.hash).result = .ok attributes ∧
      log.fragments = [[.icon arguments attributes]] ∧
      log.marks = (iconPaths args).flatMap (markOf scopes) := by
  obtain ⟨first, arguments, rest, harguments, hrest, rfl⟩ := Step.bind_eq_ok.mp h
  obtain ⟨hf, hm⟩ := iconArguments_reads scopes args.params first arguments harguments
  obtain ⟨attributes, hattributes, hfragments, hmarks⟩ :=
    (iconAttributes_reads scopes o args.hash).emit hrest
  refine ⟨arguments, attributes, by rw [harguments], hattributes, ?_, ?_⟩
  · simp [hf, hfragments]
  · simp [hm, hmarks, iconPaths]

theorem inclusion_eq_ok {name : Expr} (h : inclusion o scopes name args = ⟨log, .ok ()⟩) :
    ∃ file context named, (inclusionName o scopes name).result = .ok file ∧
      (contextBinding o scopes name args.params).result = .ok context ∧
      (bindings scopes args.hash).result = .ok named ∧
      log.fragments = [[.inclusion file (context ++ named)]] ∧
      log.marks = (inclusionPaths name args).flatMap (markOf scopes) := by
  obtain ⟨first, file, _, hfile, hbindings, rfl⟩ := Step.bind_eq_ok.mp h
  obtain ⟨second, context, rest, hcontext, hrest, rfl⟩ := Step.bind_eq_ok.mp hbindings
  obtain ⟨hf₁, hm₁⟩ := inclusionName_reads scopes o name first file hfile
  obtain ⟨hf₂, hm₂⟩ := contextBinding_reads scopes o name args.params second context hcontext
  obtain ⟨named, hnamed, hfragments, hmarks⟩ := (bindings_reads scopes args.hash).emit hrest
  refine ⟨file, context, named, by rw [hfile], by rw [hcontext], hnamed, ?_, ?_⟩
  · simp [hf₁, hf₂, hfragments]
  · simp [hm₁, hm₂, hmarks, inclusionPaths]

/-- An interpolation is an icon or shows a variable. -/
theorem mustache_eq_ok {head : Expr} {escaped : Bool}
    (h : mustache o scopes head args escaped = ⟨log, .ok ()⟩) :
    ∃ path, head = .path path ∧
      (path.spelling = o.iconHelper ∧ icon o scopes args = ⟨log, .ok ()⟩ ∨
        path.spelling ≠ o.iconHelper ∧ ∃ value, (reference scopes path).result = .ok value ∧
          log.fragments = [[.output value (!escaped)]] ∧
          log.marks = (referencePaths path).flatMap (markOf scopes)) := by
  cases head with
  | path path =>
    refine ⟨path, rfl, ?_⟩
    simp only [mustache] at h
    split at h
    · next hicon => exact .inl ⟨hicon, h⟩
    · next hicon =>
      refine .inr ⟨hicon, ?_⟩
      split at h
      · obtain ⟨value, hvalue, hfragments, hmarks⟩ := (reference_reads scopes path).emit h
        exact ⟨value, hvalue, hfragments, hmarks⟩
      · obtain ⟨_, _, rest, hnote, hrest, rfl⟩ := Step.bind_eq_ok.mp h
        obtain ⟨value, hvalue, hfragments, hmarks⟩ := (reference_reads scopes path).emit hrest
        rw [Step.report_eq_ok.mp hnote]
        exact ⟨value, hvalue, hfragments, hmarks⟩
  | _ => exact absurd h Step.refuse_ne_ok

end

end Stencil.Conversion
