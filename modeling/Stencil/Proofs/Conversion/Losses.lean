import Stencil.Proofs.Conversion.Binding
import Stencil.Proofs.Conversion.Refusals
import Stencil.Proofs.Handlebars.Soundness

/-!
# What a conversion loses in silence

A conversion notes what it cannot translate. Some losses it does not note: a
reference that leaves more scopes than there are, an argument that is missing
in a comparison, a slot for which there is no text. Here they are told from the
source. The text of a head that is read without a note holds the placeholder
exactly when one of its references is lost, and is empty exactly when there is
nothing to say.
-/

namespace Stencil

theorem not_resolved_unresolved : ¬ Resolved unresolved.toList :=
  fun h => h (List.infix_refl _)

/-- Words put together have no text only if there is at most one and that has none. -/
theorem intercalate_eq_empty_iff (separator : Char) {words : List String} :
    (String.singleton separator).intercalate words = "" ↔ words = [] ∨ words = [""] := by
  rcases words with _ | ⟨first, _ | ⟨second, rest⟩⟩
  · simp
  · simp
  · rw [String.intercalate_cons_cons]
    simp

/-- A scope whose names can be written. -/
structure Scope.Sound (s : Scope) : Prop where
  ne_nil : s.names ≠ []
  names : ∀ name ∈ s.names, Named name
  plain : s.replacements = none

end Stencil

namespace Stencil.Conversion

open Handlebars (Path Expr Arguments Statement Program AllBody AllInverse)
open Django (Piece)

/-- The reference leaves more scopes than there are. -/
def Lost (scopes : List Scope) (path : Path) : Prop :=
  scopes.length < path.depth

/-- The reference stands for everything that the template is given, which has no name. -/
def Nameless (scopes : List Scope) (path : Path) : Prop :=
  path.depth = scopes.length ∧ path.parts = []

def Loses (scopes : List Scope) (paths : List Path) : Prop :=
  ∃ path ∈ paths, Lost scopes path

def Unnamed (scopes : List Scope) (paths : List Path) : Prop :=
  ∃ path ∈ paths, Nameless scopes path

def SaysNothing (scopes : List Scope) : Expr → Prop
  | .path path => Unnamed scopes (referencePaths path)
  | .string s => s = ""
  | _ => False

def AsksNothing (scopes : List Scope) : Option Expr → Prop
  | some (.call helper params _) =>
    helper.spelling = "condition" ∧ (params = [] ∨ ∃ e, params = [e] ∧ SaysNothing scopes e)
  | some e => SaysNothing scopes e
  | none => False

/-- The name of a file holds the placeholder once its extension has been replaced. -/
def Misnamed (o : Options) : Expr → Prop
  | .string s => ¬ Resolved (inclusionName o [] (.string s)).text.toList
  | .path path => ¬ Resolved (inclusionName o [] (.path path)).text.toList
  | _ => False

/-- The statement loses something and the conversion does not note it. -/
def Forgets (o : Options) (v : Visit) : Prop :=
  match v.statement with
  | .mustache (.path path) args _ =>
    if path.spelling = o.iconHelper then Loses v.scopes (iconPaths args)
    else Loses v.scopes (referencePaths path) ∨ Unnamed v.scopes (referencePaths path)
  | .block helper args program _ =>
    let paths := blockPaths helper args program.blockParams
    if helper.spelling = "if" ∨ helper.spelling = "unless" then
      Loses v.scopes paths ∨ AsksNothing v.scopes args.params[0]?
    else
      ((helper.spelling = "eq" ∨ helper.spelling = "is") ∧ args.params.length < 2) ∨
        Loses v.scopes paths ∨ Unnamed v.scopes paths
  | .embed name args => Loses v.scopes (inclusionPaths name args)
  | _ => False

/-- The settings put the placeholder into an attribute of an icon or the name of a file. -/
def Spoiled (o : Options) : Statement → Prop
  | .mustache (.path path) args _ =>
    path.spelling = o.iconHelper ∧
      ∃ pair ∈ args.hash, ∃ text ∈ attributeText? o.iconClassPrefix pair.2, ¬ Resolved text.toList
  | .embed name _ => Misnamed o name
  | _ => False

/-- What is written for the statement itself is not complete. -/
def Degraded (o : Options) (v : Visit) : Prop :=
  Forgets o v ∨ Spoiled o v.statement

section
variable {scopes : List Scope} {paths more : List Path}

@[simp] theorem loses_nil : ¬ Loses scopes [] := by
  simp [Loses]

@[simp] theorem loses_append :
    Loses scopes (paths ++ more) ↔ Loses scopes paths ∨ Loses scopes more := by
  simp [Loses, or_and_right, exists_or]

@[simp] theorem unnamed_nil : ¬ Unnamed scopes [] := by
  simp [Unnamed]

@[simp] theorem unnamed_append :
    Unnamed scopes (paths ++ more) ↔ Unnamed scopes paths ∨ Unnamed scopes more := by
  simp [Unnamed, or_and_right, exists_or]

end

mutual

/-- A class is resolved behind a text without question marks. -/
theorem resolved_classes {classPrefix : String} (hclass : '?' ∉ classPrefix.toList) (e : Expr)
    (h : e.All Expr.Sound) : ∀ text ∈ classes classPrefix e, Resolved text.toList := by
  cases e with
  | string s =>
    have hs : Resolved s.toList := h
    rw [classes]
    split
    · simp
    · simpa [Resolved.append_iff_of_not_mem hclass] using hs
  | call helper params hash =>
    rw [classes]
    exact resolved_classesOfAll hclass params h.2.1
  | _ => simp [classes]

theorem resolved_classesOfAll {classPrefix : String} (hclass : '?' ∉ classPrefix.toList)
    (params : List Expr) (h : Expr.AllParams Expr.Sound params) :
    ∀ text ∈ classesOfAll classPrefix params, Resolved text.toList := by
  cases params with
  | nil => simp [classesOfAll]
  | cons e params =>
    rw [classesOfAll, List.forall_mem_append]
    exact ⟨resolved_classes hclass e h.1, resolved_classesOfAll hclass params h.2⟩

end

theorem resolved_attributeText? {classPrefix : String} (hclass : '?' ∉ classPrefix.toList)
    {e : Expr} (h : e.All Expr.Sound) :
    ∀ text ∈ attributeText? classPrefix e, Resolved text.toList := by
  cases e with
  | string s =>
    have hs : Resolved s.toList := h
    simpa [attributeText?] using hs
  | call helper params hash =>
    intro text htext
    simp only [attributeText?] at htext
    split at htext
    · split at htext
      · next s rest =>
        cases htext
        have hs : Resolved s.toList := h.2.1.2.1
        simpa [Resolved.append_iff_of_not_mem hclass] using hs
      · cases htext
        have hclasses := resolved_classesOfAll hclass _ h.2.1
        exact (Resolved.intercalate_iff ' ' (by decide)).mpr hclasses
      · cases htext
    · cases htext
  | _ => simp [attributeText?]

theorem resolved_inQuotes_iff (s : String) :
    Resolved (inQuotes s).toList ↔ Resolved s.toList := by
  simp [inQuotes, Resolved.cons_iff, Resolved.concat_iff]

theorem not_misnamed {o : Options} (htarget : '?' ∉ o.targetExtension.toList) {name : Expr}
    (h : name.All Expr.Sound) : ¬ Misnamed o name := by
  cases name with
  | string s =>
    have hs : Resolved s.toList := h
    rw [Misnamed, Classical.not_not, inclusionName]
    change Resolved (inQuotes _).toList
    rw [resolved_inQuotes_iff, String.toList_ofList, Text.replaceFirst]
    split
    · next before after hcut =>
      obtain ⟨hbefore, hafter⟩ := hs.of_cut hcut
      rw [List.append_assoc, List.cons_append, Resolved.append_cons_iff (by decide),
        Resolved.append_iff_of_not_mem htarget]
      exact ⟨hbefore, hafter⟩
    · exact hs
  | path path =>
    have hparts : ∀ part ∈ path.parts.filter (· ≠ o.sourceExtension), Resolved part.toList :=
      fun part hpart => (h.parts part (List.mem_filter.mp hpart).1).resolved
    rw [Misnamed, Classical.not_not, inclusionName]
    change Resolved (inQuotes _).toList
    have hlist (front : String) : (front ++ "." ++ o.targetExtension).toList =
        front.toList ++ '.' :: o.targetExtension.toList := by
      simp
    rw [resolved_inQuotes_iff, hlist, Resolved.append_cons_iff (by decide)]
    exact ⟨(Resolved.intercalate_iff '/' (by decide)).mpr hparts, Resolved.of_not_mem htarget⟩
  | _ => exact id

/-- Settings without question marks spoil nothing. -/
theorem not_spoiled {o : Options} (hclass : '?' ∉ o.iconClassPrefix.toList)
    (htarget : '?' ∉ o.targetExtension.toList) {s : Statement} (h : s.Sound) : ¬ Spoiled o s := by
  cases s with
  | mustache head args escaped =>
    cases head with
    | path path =>
      rintro ⟨-, pair, hpair, text, htext, hmark⟩
      have hvalue : pair.2.All Expr.Sound := Expr.allHash_iff.mp h.2.1.2 pair hpair
      exact hmark (resolved_attributeText? hclass hvalue text htext)
    | _ => exact id
  | embed name args => exact not_misnamed htarget h.1
  | _ => exact id

section
variable {scopes : List Scope} {path : Path}

/-- Names put together with dots are a name. -/
theorem named_joined (hparts : ∀ part ∈ path.parts, Named part) (hne : path.parts ≠ []) :
    Named path.joined where
  ne_empty := by
    intro h
    rcases (intercalate_eq_empty_iff '.').mp h with h | h
    · exact hne h
    · exact (hparts "" (by simp [h])).ne_empty rfl
  resolved := (Resolved.intercalate_iff '.' (by decide)).mpr fun part hpart =>
    (hparts part hpart).resolved

theorem named_member {scope : Scope} {outer : List Scope} {first dotted : String}
    (hscopes : ∀ other ∈ scope :: outer, other.Sound) (hdotted : Named dotted) :
    Named (Scopes.member scope outer first dotted) := by
  unfold Scopes.member
  simp only [Scopes.merge_replacements fun other hother => (hscopes other hother).plain]
  have hscope := hscopes scope List.mem_cons_self
  obtain ⟨value, names, hnames⟩ := List.exists_cons_of_ne_nil hscope.ne_nil
  have hvalue : Named value := hscope.names value (by simp [hnames])
  split
  · rwa [Dictionary.get?_empty]
  · simp only [Scope.value?, hnames, List.getElem?_cons_zero]
    refine ⟨by simp, ?_⟩
    have hlist : (value ++ "." ++ dotted).toList = value.toList ++ '.' :: dotted.toList := by
      simp
    rw [hlist, Resolved.append_cons_iff (by decide)]
    exact ⟨hvalue.resolved, hdotted.resolved⟩

theorem named_of_loopVariable {name : String} (h : loopVariable? path = some name) :
    Named name := by
  have hname : name = "forloop.counter0" ∨ name = "forloop.first" ∨ name = "forloop.last" := by
    grind [loopVariable?]
  rcases hname with rfl | rfl | rfl
  · exact ⟨by simp, by simp [Resolved.cons_iff]⟩
  · exact ⟨by simp, by simp [Resolved.cons_iff]⟩
  · exact ⟨by simp, by simp [Resolved.cons_iff]⟩

/-- A reference that reaches a scope becomes a name. -/
theorem named_resolve (hscopes : ∀ scope ∈ scopes, scope.Sound) (hpath : path.Sound)
    (hlost : ¬ Lost scopes path) (hname : ¬ Nameless scopes path) :
    Named (Scopes.resolve scopes path).text := by
  unfold Scopes.resolve
  rw [if_neg (show ¬ scopes.length < path.depth from hlost)]
  cases hdrop : scopes.drop path.depth with
  | nil =>
    have hdepth : path.depth = scopes.length :=
      Nat.le_antisymm (Nat.not_lt.mp hlost) (List.drop_eq_nil_iff.mp hdrop)
    exact named_joined hpath.parts fun hparts => hname ⟨hdepth, hparts⟩
  | cons scope outer =>
    have hreached : ∀ other ∈ scope :: outer, other.Sound := by
      intro other hother
      rw [← hdrop] at hother
      exact hscopes other (List.mem_of_mem_drop hother)
    have hscope := hreached scope List.mem_cons_self
    cases hparts : path.parts with
    | nil =>
      obtain ⟨value, names, hnames⟩ := List.exists_cons_of_ne_nil hscope.ne_nil
      simpa [Scope.value?, hnames] using hscope.names value (by simp [hnames])
    | cons first rest =>
      simp only
      split
      · cases hkey : scope.key? with
        | some key => exact hscope.names key (List.mem_of_getElem? hkey)
        | none => exact ⟨by simp, by simp [Resolved.cons_iff]⟩
      · exact named_member hreached (named_joined hpath.parts (by simp [hparts]))

theorem resolve_of_lost (h : Lost scopes path) :
    (Scopes.resolve scopes path).text = unresolved := by
  unfold Scopes.resolve
  rw [if_pos (show scopes.length < path.depth from h)]

theorem resolve_of_nameless (h : Nameless scopes path) :
    (Scopes.resolve scopes path).text = "" := by
  obtain ⟨hdepth, hparts⟩ := h
  simp [Scopes.resolve, hdepth, Path.joined, hparts]

end

/-- A step behind a note is not silent. -/
theorem Step.diagnostics_ne_nil {α : Type} {d : Diagnostic} {x : Step α} {log : Log} {a : α}
    (h : (do Step.report d; x) = ⟨log, .ok a⟩) : log.diagnostics ≠ [] := by
  obtain ⟨_, _, _, hnote, -, rfl⟩ := Step.bind_eq_ok.mp h
  rw [Step.report_eq_ok.mp hnote]
  simp

/-- A step that, if it notes nothing, gives a text with the placeholder exactly when something
is lost, and without characters exactly when there is nothing to say. -/
def Yields (x : Step String) (lost nothing : Prop) : Prop :=
  ∀ log text, x = ⟨log, .ok text⟩ → log.diagnostics = [] →
    (Resolved text.toList ↔ ¬ lost) ∧ (text = "" ↔ nothing)

namespace Yields

variable {lost nothing : Prop}

theorem name {text : String} (h : Named text) (hlost : ¬ lost) (hnothing : ¬ nothing) :
    Yields (pure text) lost nothing := by
  intro log same hrun _
  obtain ⟨-, rfl⟩ := Step.pure_eq_ok.mp hrun
  exact ⟨by simp [h.resolved, hlost], by simp [h.ne_empty, hnothing]⟩

theorem named_iff {x : Step String} {log : Log} {text : String} (h : Yields x lost nothing)
    (hrun : x = ⟨log, .ok text⟩) (hquiet : log.diagnostics = []) :
    Named text ↔ ¬ (lost ∨ nothing) := by
  obtain ⟨hresolved, hempty⟩ := h log text hrun hquiet
  rw [not_or, ← hresolved, ← hempty]
  exact ⟨fun hnamed => ⟨hnamed.resolved, hnamed.ne_empty⟩, fun hboth => ⟨hboth.2, hboth.1⟩⟩

theorem after_report {x : Step String} (d : Diagnostic) :
    Yields (do Step.report d; x) lost nothing := by
  intro log text hrun hquiet
  exact absurd hquiet (Step.diagnostics_ne_nil hrun)

end Yields

section
variable {scopes : List Scope} (hscopes : ∀ scope ∈ scopes, scope.Sound)
include hscopes

theorem resolve_yields {path : Path} (hpath : path.Sound) :
    Yields (.resolve scopes path) (Lost scopes path) (Nameless scopes path) := by
  intro log text hrun _
  cases hrun
  by_cases hlost : Lost scopes path
  · have hname : ¬ Nameless scopes path := fun h => Nat.ne_of_gt hlost h.1
    rw [resolve_of_lost hlost]
    exact ⟨by simp [hlost, not_resolved_unresolved], by simp [hname, unresolved]⟩
  · by_cases hname : Nameless scopes path
    · rw [resolve_of_nameless hname]
      simp [hlost, hname]
    · have h := named_resolve hscopes hpath hlost hname
      simp [hlost, hname, h.resolved, h.ne_empty]

theorem reference_yields {path : Path} (hpath : path.Sound) :
    Yields (reference scopes path) (Loses scopes (referencePaths path))
      (Unnamed scopes (referencePaths path)) := by
  unfold reference referencePaths
  cases hvariable : loopVariable? path with
  | none => simpa [Loses, Unnamed] using resolve_yields hscopes hpath
  | some name =>
    exact .name (named_of_loopVariable hvariable) (by simp) (by simp)

theorem argument_yields {e : Expr} (h : e.All Expr.Sound) :
    Yields (argument scopes e) (Loses scopes (argumentPaths e))
      (Unnamed scopes (argumentPaths e)) := by
  cases e with
  | path path => exact reference_yields hscopes h
  | _ => exact .name (Expr.named_asWritten _ h) (by simp [argumentPaths]) (by simp [argumentPaths])

theorem operand_yields {e : Expr} (h : e.All Expr.Sound) :
    Yields (operand scopes e) (Loses scopes (argumentPaths e))
      (SaysNothing scopes e) := by
  cases e with
  | path path => exact reference_yields hscopes h
  | string s =>
    intro log text hrun _
    obtain ⟨-, rfl⟩ := Step.pure_eq_ok.mp hrun
    have hs : Resolved s.toList := h
    exact ⟨by simp [argumentPaths, Expr.literalText, hs], Iff.rfl⟩
  | _ => exact .name (Expr.named_asWritten _ h) (by simp [argumentPaths]) (by simp [SaysNothing])

theorem collection_yields {e : Option Expr} (h : ∀ x ∈ e, x.All Expr.Sound) :
    Yields (collection scopes e) (Loses scopes (argumentPaths? e))
      (Unnamed scopes (argumentPaths? e)) := by
  cases e with
  | none => exact .after_report _
  | some e =>
    cases e with
    | path path => exact reference_yields hscopes (h _ rfl)
    | _ => exact .after_report _

end

/-- A step that puts together what another one gives for each of some expressions. -/
structure Collects (f : Expr → Step String) (g : List Expr → Step (List String)) : Prop where
  nil : g [] = pure []
  cons : ∀ e rest, g (e :: rest) = do
    let word ← f e
    let words ← g rest
    pure (word :: words)

namespace Collects

variable {f : Expr → Step String} {g : List Expr → Step (List String)} {log : Log}

theorem cons_eq_ok (h : Collects f g) {e : Expr} {rest : List Expr} {words : List String}
    (hrun : g (e :: rest) = ⟨log, .ok words⟩) :
    ∃ first word second more, f e = ⟨first, .ok word⟩ ∧ g rest = ⟨second, .ok more⟩ ∧
      words = word :: more ∧ log = first ++ second := by
  rw [h.cons] at hrun
  obtain ⟨first, word, _, hword, hrest, rfl⟩ := Step.bind_eq_ok.mp hrun
  obtain ⟨second, more, _, hmore, hwords, rfl⟩ := Step.bind_eq_ok.mp hrest
  obtain ⟨rfl, rfl⟩ := Step.pure_eq_ok.mp hwords
  exact ⟨first, word, second, more, hword, hmore, rfl, by simp⟩

theorem resolved_iff (h : Collects f g) {scopes : List Scope} {params : List Expr}
    (hyields : ∀ e ∈ params, ∃ nothing,
      Yields (f e) (Loses scopes (argumentPaths e)) nothing)
    {words : List String} (hrun : g params = ⟨log, .ok words⟩) (hquiet : log.diagnostics = []) :
    (∀ word ∈ words, Resolved word.toList) ↔
      ¬ Loses scopes (params.flatMap argumentPaths) := by
  induction params generalizing log words with
  | nil =>
    rw [h.nil] at hrun
    obtain ⟨-, rfl⟩ := Step.pure_eq_ok.mp hrun
    simp
  | cons e rest ih =>
    obtain ⟨first, word, second, more, hword, hmore, rfl, rfl⟩ := h.cons_eq_ok hrun
    obtain ⟨hfirst, hsecond⟩ := List.append_eq_nil_iff.mp hquiet
    rw [List.forall_mem_cons] at hyields
    obtain ⟨⟨nothing, he⟩, hrest⟩ := hyields
    rw [List.forall_mem_cons, (he first word hword hfirst).1, ih hrest hmore hsecond,
      List.flatMap_cons, loses_append, not_or]

end Collects

theorem operands_collects (scopes : List Scope) : Collects (operand scopes) (operands scopes) :=
  ⟨rfl, fun _ _ => rfl⟩

theorem iconArguments_collects (scopes : List Scope) :
    Collects (argument scopes) (iconArguments scopes) :=
  ⟨rfl, fun _ _ => rfl⟩

section
variable {scopes : List Scope} (hscopes : ∀ scope ∈ scopes, scope.Sound)
include hscopes

/-- A spelled-out condition has no text if it has no words or a single one without text. -/
theorem operands_eq_nothing_iff {params : List Expr} (h : ∀ e ∈ params, e.All Expr.Sound)
    {log : Log} {words : List String} (hrun : operands scopes params = ⟨log, .ok words⟩)
    (hquiet : log.diagnostics = []) :
    words = [] ∨ words = [""] ↔ params = [] ∨ ∃ e, params = [e] ∧ SaysNothing scopes e := by
  have hcollects := operands_collects scopes
  cases params with
  | nil =>
    obtain ⟨-, rfl⟩ := Step.pure_eq_ok.mp hrun
    simp
  | cons e rest =>
    obtain ⟨first, word, second, more, hword, hmore, rfl, rfl⟩ := hcollects.cons_eq_ok hrun
    obtain ⟨hfirst, -⟩ := List.append_eq_nil_iff.mp hquiet
    have he := (operand_yields hscopes (h e List.mem_cons_self) first word hword hfirst).2
    cases rest with
    | nil =>
      obtain ⟨-, rfl⟩ := Step.pure_eq_ok.mp hmore
      simp [he]
    | cons e' rest =>
      obtain ⟨_, _, _, _, -, -, rfl, -⟩ := hcollects.cons_eq_ok hmore
      simp

theorem condition_yields {e : Option Expr} (h : ∀ x ∈ e, x.All Expr.Sound) :
    Yields (condition scopes e) (Loses scopes (conditionPaths e))
      (AsksNothing scopes e) := by
  cases e with
  | none => exact .after_report _
  | some e =>
    have he : e.All Expr.Sound := h e rfl
    cases e with
    | path path => exact reference_yields hscopes he
    | call helper params hash =>
      unfold condition conditionPaths AsksNothing
      by_cases hspelled : helper.spelling = "condition"
      · simp only [hspelled, if_true, true_and]
        have hparams : ∀ x ∈ params, x.All Expr.Sound := Expr.allParams_iff.mp he.2.1
        intro log text hrun hquiet
        obtain ⟨first, words, _, hwords, htext, rfl⟩ := Step.bind_eq_ok.mp hrun
        obtain ⟨rfl, rfl⟩ := Step.pure_eq_ok.mp htext
        rw [Log.append_nil] at hquiet
        have hresolved := (operands_collects scopes).resolved_iff
          (fun x hx => ⟨_, operand_yields hscopes (hparams x hx)⟩) hwords hquiet
        have hnothing := operands_eq_nothing_iff hscopes hparams hwords hquiet
        exact ⟨(Resolved.intercalate_iff ' ' (by decide)).trans hresolved,
          (intercalate_eq_empty_iff ' ').trans hnothing⟩
      · simp only [hspelled, if_false]
        exact .after_report _
    | string s => exact operand_yields hscopes he
    | number n => exact operand_yields hscopes he
    | boolean b => exact operand_yields hscopes he
    | undefined => exact operand_yields hscopes he
    | null => exact operand_yields hscopes he

end

end Stencil.Conversion
