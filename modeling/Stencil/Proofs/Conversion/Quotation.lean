import Stencil.Proofs.Conversion.Degradation
import Stencil.Proofs.Conversion.Lines
import Stencil.Proofs.Handlebars.Written

/-!
# Strings between quotes

Strings are written into tags between double quotes, and nothing in them is
protected. A tag is read the way it was meant unless a double quote stands
where none was meant. Words and names have none, so this is when one of the
strings that are written into the tag has one.
-/

namespace Stencil

open Handlebars (Path Expr Solid)
open Django (Part)

def Quoteless (s : String) : Prop :=
  '"' ∉ s.toList

instance (s : String) : Decidable (Quoteless s) :=
  inferInstanceAs (Decidable ('"' ∉ s.toList))

namespace Quoteless

theorem append_iff {s t : String} : Quoteless (s ++ t) ↔ Quoteless s ∧ Quoteless t := by
  simp [Quoteless]

theorem of_solid {s : String} (h : Solid s.toList) : Quoteless s :=
  fun hquote => absurd (h.2 '"' hquote) (by decide)

theorem of_infix {s t : String} (ht : Quoteless t) (h : s.toList <:+: t.toList) : Quoteless s :=
  fun hquote => ht (h.subset hquote)

theorem intercalate_iff {separator : String} (hseparator : Quoteless separator)
    {words : List String} :
    Quoteless (separator.intercalate words) ↔ ∀ word ∈ words, Quoteless word := by
  induction words with
  | nil => simp [Quoteless]
  | cons word rest ih =>
    cases rest with
    | nil => simp
    | cons next rest =>
      rw [String.intercalate_cons_cons, append_iff, append_iff, ih, List.forall_mem_cons]
      simp [hseparator]

end Quoteless

/-- A quote behind the text is not protected by it. -/
def Closable (s : String) : Prop :=
  s.toList.getLast? ≠ some '\\'

instance (s : String) : Decidable (Closable s) :=
  inferInstanceAs (Decidable (s.toList.getLast? ≠ some '\\'))

namespace Closable

theorem append {s t : String} (hs : Closable s) (ht : Closable t) : Closable (s ++ t) := by
  rw [Closable, String.toList_append, List.getLast?_append]
  rw [Closable] at ht
  cases hlast : t.toList.getLast? with
  | none => exact hs
  | some c =>
    rw [hlast] at ht
    exact ht

theorem intercalate {separator : String} (hseparator : Closable separator) {words : List String}
    (h : ∀ word ∈ words, Closable word) : Closable (separator.intercalate words) := by
  induction words with
  | nil => exact (by decide : Closable "")
  | cons word rest ih =>
    rw [List.forall_mem_cons] at h
    cases rest with
    | nil => simpa using h.1
    | cons next rest =>
      rw [String.intercalate_cons_cons]
      exact (h.1.append hseparator).append (ih h.2)

end Closable

structure Scope.Quoteless (s : Scope) : Prop where
  names : ∀ name ∈ s.names, Stencil.Quoteless name
  plain : s.replacements = none

end Stencil

namespace Stencil.Handlebars

open Django (Part)

namespace Path.Legible

variable {p : Path} (h : p.Legible)
include h

theorem quoteless_spelling : Quoteless p.spelling :=
  .of_solid h.solid

theorem quoteless_parts : ∀ part ∈ p.parts, Quoteless part := by
  intro part hpart
  rw [h.spelled] at hpart
  exact h.quoteless_spelling.of_infix (infix_of_mem_parts hpart).1

theorem quoteless_joined : Quoteless p.joined :=
  (Quoteless.intercalate_iff (by decide)).mpr h.quoteless_parts

end Path.Legible

namespace Expr

def strings (e : Expr) : List String :=
  e.within.filterMap fun
    | .string s => some s
    | _ => none

theorem all_unquoted_iff {e : Expr} : e.All Unquoted ↔ ∀ s ∈ e.strings, Quoteless s := by
  simp only [all_iff, strings, List.mem_filterMap]
  constructor
  · rintro h s ⟨d, hd, hs⟩
    have hunquoted := h d hd
    cases d with
    | string text =>
      cases hs
      exact hunquoted
    | _ => cases hs
  · intro h d hd
    cases d with
    | string text => exact h text ⟨_, hd, rfl⟩
    | _ => trivial

theorem quoteless_boolText (b : Bool) : Quoteless (boolText b) := by
  cases b <;> decide

mutual

/-- The parts of an expression are safe if its strings are. -/
theorem safe_parts_iff : ∀ {e : Expr}, e.All Legible →
    ((∀ part ∈ e.parts, part.Safe) ↔ e.All Unquoted)
  | path p, h => by
    have hspelling : (Part.bare p.spelling).Safe := h.quoteless_spelling
    simp [parts, All, Unquoted, hspelling]
  | call helper params hash, h => by
    obtain ⟨⟨hhelper, hkeys⟩, hparams, hhash⟩ := h
    have hopen : (Part.bare ("(" ++ helper.spelling)).Safe :=
      Quoteless.append_iff.mpr ⟨by decide, hhelper.quoteless_spelling⟩
    have hclose : (Part.bare ")").Safe := by decide
    rw [parts, List.forall_mem_cons, List.forall_mem_append, List.forall_mem_append,
      safe_partsOfParams_iff hparams, safe_partsOfHash_iff hhash hkeys]
    simp [All, Unquoted, hopen, hclose]
  | string s, h => by
    have hend : s.toList.getLast? ≠ some '\\' := h
    simp [parts, All, Unquoted, Part.Safe, hend]
  | number n, h => by
    have hdigits : (Part.bare n).Safe := Quoteless.of_solid h.1
    simp [parts, All, Unquoted, hdigits]
  | boolean b, _ => by
    have htext : (Part.bare (boolText b)).Safe := quoteless_boolText b
    simp [parts, All, Unquoted, htext]
  | undefined, _ => by
    have htext : (Part.bare "undefined").Safe := by decide
    simp [parts, All, Unquoted, htext]
  | null, _ => by
    have htext : (Part.bare "null").Safe := by decide
    simp [parts, All, Unquoted, htext]

theorem safe_partsOfParams_iff : ∀ {params : List Expr}, AllParams Legible params →
    ((∀ part ∈ partsOfParams params, part.Safe) ↔ AllParams Unquoted params)
  | [], _ => by simp [partsOfParams, AllParams]
  | e :: params, h => by
    have hspace : (Part.bare " ").Safe := by decide
    rw [partsOfParams, List.forall_mem_cons, List.forall_mem_append, safe_parts_iff h.1,
      safe_partsOfParams_iff h.2]
    simp [AllParams, hspace]

theorem safe_partsOfHash_iff : ∀ {hash : List (String × Expr)}, AllHash Legible hash →
    (∀ pair ∈ hash, Solid pair.1.toList) →
    ((∀ part ∈ partsOfHash hash, part.Safe) ↔ AllHash Unquoted hash)
  | [], _, _ => by simp [partsOfHash, AllHash]
  | (key, e) :: hash, h, hkeys => by
    rw [List.forall_mem_cons] at hkeys
    have hkey : (Part.bare (" " ++ key ++ "=")).Safe := by
      have hsolid : '"' ∉ key.toList := Quoteless.of_solid hkeys.1
      simpa [Part.Safe] using hsolid
    rw [partsOfHash, List.forall_mem_cons, List.forall_mem_append, safe_parts_iff h.1,
      safe_partsOfHash_iff h.2 hkeys.2]
    simp [AllHash, hkey]

end

end Expr

end Stencil.Handlebars

namespace Stencil.Conversion

open Handlebars (Path Expr Arguments Statement Program AllBody AllInverse Solid)
open Django (Part spell)

theorem quoteless_unresolved : Quoteless unresolved := by
  decide

/-- A member of a scope becomes a text without double quotes. -/
theorem quoteless_member {scope : Scope} {outer : List Scope} {first dotted : String}
    (hreached : ∀ other ∈ scope :: outer, other.Quoteless) (hdotted : Quoteless dotted) :
    Quoteless (Scopes.member scope outer first dotted) := by
  unfold Scopes.member
  simp only [Scopes.merge_replacements fun other hother => (hreached other hother).plain,
    Dictionary.get?_empty]
  split
  · exact hdotted
  split
  · next value hvalue =>
    have hname := (hreached scope List.mem_cons_self).names value (List.mem_of_getElem? hvalue)
    exact Quoteless.append_iff.mpr
      ⟨Quoteless.append_iff.mpr ⟨hname, by decide⟩, hdotted⟩
  · exact quoteless_unresolved

theorem quoteless_lastName {items : String} (h : Quoteless items) :
    Quoteless (lastName items) := by
  rw [lastName]
  cases hlast : (Text.fields '.' items.toList).getLast? with
  | none => exact (by decide : Quoteless "")
  | some field =>
    have hinfix := Text.infix_of_mem_fields (List.mem_of_getLast? hlast)
    exact h.of_infix (by simpa using hinfix)

section
variable {scopes : List Scope} (hscopes : ∀ scope ∈ scopes, scope.Quoteless)
include hscopes

/-- A reference becomes a text without double quotes. -/
theorem quoteless_resolve {path : Path} (hpath : path.Legible) :
    Quoteless (Scopes.resolve scopes path).text := by
  unfold Scopes.resolve
  split
  · exact quoteless_unresolved
  split
  · exact hpath.quoteless_joined
  · next scope outer hdrop =>
    have hreached : ∀ other ∈ scope :: outer, other.Quoteless := by
      intro other hother
      rw [← hdrop] at hother
      exact hscopes other (List.mem_of_mem_drop hother)
    have hscope := hreached scope List.mem_cons_self
    split
    · cases hvalue : scope.value? with
      | none => exact quoteless_unresolved
      | some value => exact hscope.names value (List.mem_of_getElem? hvalue)
    split
    · split
      · next key hkey => exact hscope.names key (List.mem_of_getElem? hkey)
      · exact (by decide : Quoteless "key")
    · exact quoteless_member hreached hpath.quoteless_joined

theorem quoteless_reference {path : Path} (hpath : path.Legible) :
    Quoteless (reference scopes path).text := by
  unfold reference
  split
  · next name hname =>
    have hnames : name = "forloop.counter0" ∨ name = "forloop.first" ∨ name = "forloop.last" := by
      grind [loopVariable?]
    rcases hnames with rfl | rfl | rfl <;> decide
  · exact quoteless_resolve hscopes hpath

theorem quoteless_collection {e : Option Expr} (h : ∀ x ∈ e, x.All Expr.Legible) :
    Quoteless (collection scopes e).text := by
  cases e with
  | none => exact quoteless_unresolved
  | some e =>
    cases e with
    | path path => exact quoteless_reference hscopes (h _ rfl)
    | _ => exact quoteless_unresolved

/-- The scope that a block opens has names without double quotes. -/
theorem quoteless_opening {helper : Path} {args : Arguments} {program : Program}
    {opening : Opening} (hargs : args.Legible)
    (hnames : ∀ name ∈ program.blockParams, Solid name.toList)
    (hopening : Opening.of? helper args program = some opening) :
    (opening.scope scopes).Quoteless := by
  unfold Opening.of? at hopening
  split at hopening
  · cases hopening
    refine ⟨?_, rfl⟩
    have hitems : Quoteless (collection scopes args.params[0]?).text :=
      quoteless_collection hscopes fun e he =>
        Expr.allParams_iff.mp hargs.1.1 e (List.mem_of_getElem? he)
    change ∀ name ∈ loopNames _ _, Quoteless name
    unfold loopNames
    split
    · rw [List.forall_mem_singleton]
      exact Quoteless.append_iff.mpr ⟨quoteless_lastName hitems, by decide⟩
    · exact fun name hname => .of_solid (hnames name hname)
  split at hopening
  · obtain ⟨⟨collection, key, name⟩, shape, rfl⟩ := Option.map_eq_some_iff.mp hopening
    refine ⟨?_, rfl⟩
    have hname : Solid name.toList := hnames name (by simp [(params_of_lookup shape).2])
    exact List.forall_mem_singleton.mpr (.of_solid hname)
  · cases hopening

end

mutual

/-- The scopes of the statements that are visited have names without double quotes. -/
theorem quoteless_visits {scopes : List Scope} (hscopes : ∀ scope ∈ scopes, scope.Quoteless) :
    ∀ s : Statement, s.All Statement.Legible → ∀ v ∈ visits scopes s, ∀ scope ∈ v.scopes,
      scope.Quoteless
  | .block helper args ⟨body, blockParams⟩ inverse, ⟨hblock, hbody, hinverse⟩, v, hv => by
    rw [visits, List.mem_cons, List.mem_append] at hv
    rcases hv with rfl | hv | hv
    · exact hscopes
    · refine quoteless_visitsOfBody ?_ body hbody v hv
      cases hopening : Opening.of? helper args ⟨body, blockParams⟩ with
      | none => exact hscopes
      | some opening =>
        have hscope := quoteless_opening hscopes hblock.2.1 hblock.2.2.1 hopening
        exact List.forall_mem_cons.mpr ⟨hscope, hscopes⟩
    · split at hv
      · cases hv
      · exact quoteless_visitsOfInverse hscopes inverse hinverse v hv
  | .content text, _, v, hv => by
    rw [visits] at hv
    cases List.mem_singleton.mp hv
    exact hscopes
  | .comment text, _, v, hv => by
    rw [visits] at hv
    cases List.mem_singleton.mp hv
    exact hscopes
  | .mustache head args escaped, _, v, hv => by
    rw [visits] at hv
    cases List.mem_singleton.mp hv
    exact hscopes
  | .embed name args, _, v, hv => by
    rw [visits] at hv
    cases List.mem_singleton.mp hv
    exact hscopes

theorem quoteless_visitsOfBody {scopes : List Scope}
    (hscopes : ∀ scope ∈ scopes, scope.Quoteless) :
    ∀ body : List Statement, AllBody Statement.Legible body → ∀ v ∈ visitsOfBody scopes body,
      ∀ scope ∈ v.scopes, scope.Quoteless
  | [], _, v, hv => by
    rw [visitsOfBody] at hv
    cases hv
  | s :: body, h, v, hv => by
    rw [visitsOfBody, List.mem_append] at hv
    exact hv.elim (quoteless_visits hscopes s h.1 v) (quoteless_visitsOfBody hscopes body h.2 v)

theorem quoteless_visitsOfInverse {scopes : List Scope}
    (hscopes : ∀ scope ∈ scopes, scope.Quoteless) :
    ∀ inverse : Option Program, AllInverse Statement.Legible inverse →
      ∀ v ∈ visitsOfInverse scopes inverse, ∀ scope ∈ v.scopes, scope.Quoteless
  | none, _, v, hv => by
    rw [visitsOfInverse] at hv
    cases hv
  | some ⟨body, _⟩, h, v, hv => by
    rw [visitsOfInverse] at hv
    exact quoteless_visitsOfBody hscopes body h v hv

end

def conditionStrings : Option Expr → List String
  | some (.call helper params _) =>
    if helper.spelling = "condition" then params.flatMap Expr.strings else []
  | some e => e.strings
  | none => []

def attributeStrings : Expr → List String
  | .string s => [s]
  | .call helper params _ =>
    if helper.spelling = "add" then
      match params with
      | .path _ :: .string s :: _ => [s]
      | .call .. :: .call .. :: _ => classesOfAll "" params
      | _ => []
    else []
  | _ => []

/-- The string in the name of a partial, which may be looked up. -/
def nameStrings : Expr → List String
  | .string s => [s]
  | .call helper (_ :: .string s :: _) _ => if helper.spelling = "lookup" then [s] else []
  | _ => []

def bindingStrings : Expr → List String
  | .string s => [s]
  | _ => []

/-- The strings of a statement that are written into its tag. -/
def stringsOf (o : Options) : Statement → List String
  | .mustache (.path path) args _ =>
    if path.spelling = o.iconHelper then
      args.params.flatMap Expr.strings ++ args.hash.flatMap fun pair => attributeStrings pair.2
    else []
  | .block helper args program _ =>
    if helper.spelling = "if" ∨ helper.spelling = "unless" then conditionStrings args.params[0]?
    else if helper.spelling = "eq" ∨ helper.spelling = "is" then
      (args.params.take 2).flatMap Expr.strings
    else if helper.spelling = "with" then
      match lookup? args program.blockParams with
      | some (collection, key, _) => collection.strings ++ key.strings
      | none => []
    else []
  | .embed name args =>
    nameStrings name ++ (args.params.take 1).flatMap Expr.strings ++
      args.hash.flatMap fun pair => bindingStrings pair.2
  | _ => []

/-- Settings that can stand between quotes. -/
def Quotable (o : Options) : Prop :=
  ∀ setting ∈ [o.iconClassPrefix, o.sourceExtension, o.targetExtension], (Part.quoted setting).Safe

instance (o : Options) : Decidable (Quotable o) :=
  List.decidableBAll _ _

/-- The spaces between lines are safe. -/
theorem safe_spaced_iff (lines : List (List Part)) :
    (∀ part ∈ spaced lines, part.Safe) ↔ ∀ part ∈ lines.flatten, part.Safe := by
  have hspace : (Part.bare " ").Safe := by decide
  rw [spaced]
  induction lines with
  | nil => simp
  | cons line rest ih =>
    cases rest with
    | nil => simp
    | cons next rest =>
      rw [List.intercalate_cons_cons, List.flatten_cons, List.forall_mem_append,
        List.forall_mem_append, List.forall_mem_append, List.forall_mem_singleton]
      exact and_congr (and_iff_left hspace) ih

/-- The parts are safe exactly when the strings hold no double quotes. -/
def Decides (line : List Part) (strings : List String) : Prop :=
  (∀ part ∈ line, part.Safe) ↔ ∀ s ∈ strings, Quoteless s

namespace Decides

variable {line more : List Part} {strings others : List String}

theorem nil : Decides [] [] := by
  simp [Decides]

theorem append (hfirst : Decides line strings) (hsecond : Decides more others) :
    Decides (line ++ more) (strings ++ others) := by
  rw [Decides, List.forall_mem_append, List.forall_mem_append]
  exact and_congr hfirst hsecond

theorem cons {text : String} (htext : Quoteless text) (h : Decides line strings) :
    Decides (.bare text :: line) strings := by
  rw [Decides, List.forall_mem_cons]
  exact (and_iff_right htext).trans h

theorem bare {text : String} (htext : Quoteless text) : Decides [.bare text] [] :=
  nil.cons htext

theorem flatMap {α : Type} {f : α → List Part} {g : α → List String} {l : List α}
    (h : ∀ x ∈ l, Decides (f x) (g x)) : Decides (l.flatMap f) (l.flatMap g) := by
  induction l with
  | nil => exact nil
  | cons x l ih =>
    rw [List.forall_mem_cons] at h
    rw [List.flatMap_cons, List.flatMap_cons]
    exact h.1.append (ih h.2)

theorem spaced {lines : List (List Part)} (h : Decides lines.flatten strings) :
    Decides (Conversion.spaced lines) strings :=
  (safe_spaced_iff lines).trans h

end Decides

/-- A text between quotes that holds double quotes exactly when the strings do. -/
theorem Decides.quoted {text : String} {strings : List String} (hclosable : Closable text)
    (h : Quoteless text ↔ ∀ s ∈ strings, Quoteless s) : Decides [.quoted text] strings := by
  rw [Decides, List.forall_mem_singleton]
  exact (and_iff_left hclosable).trans h

theorem parts_decides {e : Expr} (h : e.All Expr.Legible) : Decides e.parts e.strings :=
  (Expr.safe_parts_iff h).trans Expr.all_unquoted_iff

section
variable {scopes : List Scope} (hscopes : ∀ scope ∈ scopes, scope.Quoteless)
include hscopes

theorem argument_decides {e : Expr} (h : e.All Expr.Legible) :
    Decides (argumentParts scopes e) e.strings := by
  cases e with
  | path path => exact .bare (quoteless_reference hscopes h)
  | _ => exact parts_decides h

theorem operand_decides {e : Expr} (h : e.All Expr.Legible) :
    Decides (operandParts scopes e) e.strings := by
  cases e with
  | path path => exact .bare (quoteless_reference hscopes h)
  | string s => simp [Decides, operandParts, Expr.strings, Expr.within, Part.Safe, Quoteless]
  | _ => exact parts_decides h

theorem condition_decides {e : Option Expr} (h : ∀ x ∈ e, x.All Expr.Legible) :
    Decides (conditionParts scopes e) (conditionStrings e) := by
  cases e with
  | none => exact .bare quoteless_unresolved
  | some e =>
    have he : e.All Expr.Legible := h e rfl
    cases e with
    | call helper params hash =>
      simp only [conditionParts, conditionStrings]
      split
      · have hparams : ∀ x ∈ params, x.All Expr.Legible := Expr.allParams_iff.mp he.2.1
        apply Decides.spaced
        rw [← List.flatMap_def]
        exact .flatMap fun x hx => operand_decides hscopes (hparams x hx)
      · exact .bare quoteless_unresolved
    | path path => exact operand_decides hscopes he
    | string s => exact operand_decides hscopes he
    | number n => exact operand_decides hscopes he
    | boolean b => exact operand_decides hscopes he
    | undefined => exact operand_decides hscopes he
    | null => exact operand_decides hscopes he

theorem equal_decides {params : List Expr} (h : ∀ e ∈ params, e.All Expr.Legible) :
    Decides (.bare "if " :: (argumentParts? scopes params[0]? ++
        .bare " == " :: ((params[1]?.map Expr.parts).getD [.bare unresolved])))
      ((params.take 2).flatMap Expr.strings) := by
  have hequals : Quoteless " == " := by decide
  refine Decides.cons (by decide) ?_
  rcases params with _ | ⟨first, _ | ⟨second, rest⟩⟩
  · exact (Decides.bare quoteless_unresolved).append
      ((Decides.bare quoteless_unresolved).cons hequals)
  · rw [List.forall_mem_singleton] at h
    exact (argument_decides hscopes h).append ((Decides.bare quoteless_unresolved).cons hequals)
  · rw [List.forall_mem_cons, List.forall_mem_cons] at h
    have hboth := (argument_decides hscopes h.1).append ((parts_decides h.2.1).cons hequals)
    simpa [argumentParts?] using hboth

theorem lookup_decides {collection key : Expr} {name : String} (hname : Quoteless name)
    (hcollection : collection.All Expr.Legible) (hkey : key.All Expr.Legible) :
    Decides (.bare ("with " ++ name ++ "=") :: (argumentParts scopes collection ++
        .bare "|lookup:" :: argumentParts scopes key))
      (collection.strings ++ key.strings) := by
  have hopen : Quoteless ("with " ++ name ++ "=") :=
    Quoteless.append_iff.mpr ⟨Quoteless.append_iff.mpr ⟨by decide, hname⟩, by decide⟩
  exact ((argument_decides hscopes hcollection).append
    ((argument_decides hscopes hkey).cons (by decide))).cons hopen

end

mutual

/-- The class prefix stands in front of each string. -/
theorem classes_eq_map (classPrefix : String) :
    ∀ e : Expr, classes classPrefix e = (classes "" e).map (classPrefix ++ ·)
  | .string s => by
    simp only [classes]
    split <;> simp
  | .call helper params hash => by
    simp only [classes]
    exact classesOfAll_eq_map classPrefix params
  | .path p => by simp [classes]
  | .number n => by simp [classes]
  | .boolean b => by simp [classes]
  | .undefined => by simp [classes]
  | .null => by simp [classes]

theorem classesOfAll_eq_map (classPrefix : String) :
    ∀ params : List Expr,
      classesOfAll classPrefix params = (classesOfAll "" params).map (classPrefix ++ ·)
  | [] => by simp [classesOfAll]
  | e :: params => by
    simp [classesOfAll, classes_eq_map classPrefix e, classesOfAll_eq_map classPrefix params]

end

mutual

theorem closable_classes : ∀ {e : Expr}, e.All Expr.Legible → ∀ s ∈ classes "" e, Closable s
  | .string s, h => by
    have hend : Closable s := h
    simp only [classes]
    split <;> simp [hend]
  | .call helper params hash, h => by
    simp only [classes]
    exact closable_classesOfAll h.2.1
  | .path p, _ => by simp [classes]
  | .number n, _ => by simp [classes]
  | .boolean b, _ => by simp [classes]
  | .undefined, _ => by simp [classes]
  | .null, _ => by simp [classes]

theorem closable_classesOfAll : ∀ {params : List Expr}, Expr.AllParams Expr.Legible params →
    ∀ s ∈ classesOfAll "" params, Closable s
  | [], _ => by simp [classesOfAll]
  | e :: params, h => by
    rw [classesOfAll, List.forall_mem_append]
    exact ⟨closable_classes h.1, closable_classesOfAll h.2⟩

end

section
variable {o : Options} (ho : Quotable o)
include ho

theorem Quotable.classPrefix : Quoteless o.iconClassPrefix ∧ Closable o.iconClassPrefix :=
  ho _ (by simp)

theorem Quotable.sourceExtension : Quoteless o.sourceExtension ∧ Closable o.sourceExtension :=
  ho _ (by simp)

theorem Quotable.targetExtension : Quoteless o.targetExtension ∧ Closable o.targetExtension :=
  ho _ (by simp)

theorem attributeText_decides {value : Expr} (h : value.All Expr.Legible) :
    Decides [.quoted ((attributeText? o.iconClassPrefix value).getD "?")]
      (attributeStrings value) := by
  obtain ⟨hquoteless, hclosable⟩ := ho.classPrefix
  have hunknown : Decides [.quoted "?"] [] := .quoted (by decide) (by decide)
  cases value with
  | string s => exact .quoted h (by simp [attributeText?, attributeStrings])
  | call helper params hash =>
    simp only [attributeText?, attributeStrings]
    split
    · split
      · next s rest =>
        have hs : Closable s := h.2.1.2.1
        refine .quoted (hclosable.append hs) ?_
        simp [Quoteless.append_iff, hquoteless]
      · have hwords := closable_classesOfAll h.2.1
        rw [Option.getD_some, classesOfAll_eq_map o.iconClassPrefix]
        refine .quoted (.intercalate (by decide) ?_)
          ((Quoteless.intercalate_iff (by decide)).trans ?_)
        · rw [List.forall_mem_map]
          exact fun s hs => hclosable.append (hwords s hs)
        · rw [List.forall_mem_map]
          simp [Quoteless.append_iff, hquoteless]
      · next hpath hcalls => simpa only [hpath, hcalls, Option.getD_none] using hunknown
    · exact hunknown
  | _ => exact hunknown

theorem attribute_decides {pair : String × Expr} (hkey : Solid pair.1.toList)
    (hvalue : pair.2.All Expr.Legible) :
    Decides (attributeParts o pair) (attributeStrings pair.2) := by
  have hname : Quoteless (attributeName pair.1) := by
    have hchars : '"' ∉ pair.1.toList := Quoteless.of_solid hkey
    rw [Quoteless, attributeName, String.toList_ofList, List.mem_map]
    rintro ⟨c, hc, hquote⟩
    split at hquote
    · cases hquote
    · exact hchars (hquote ▸ hc)
  exact (attributeText_decides ho hvalue).cons
    (Quoteless.append_iff.mpr ⟨Quoteless.append_iff.mpr ⟨by decide, hname⟩, by decide⟩)

/-- Replacing the extension neither adds nor removes a double quote, and leaves no backslash at
the end. -/
theorem replaced_decides {s : String} (hs : Closable s) :
    Decides [.quoted (String.ofList (Text.replaceFirst ('.' :: o.sourceExtension.toList)
      ('.' :: o.targetExtension.toList) s.toList))] [s] := by
  unfold Text.replaceFirst
  split
  · next before after hcut =>
    have hlist := Text.append_of_cut hcut
    have hsource : '"' ∉ o.sourceExtension.toList := ho.sourceExtension.1
    obtain ⟨htarget, hend⟩ := ho.targetExtension
    have htarget : '"' ∉ o.targetExtension.toList := htarget
    have hend : o.targetExtension.toList.getLast? ≠ some '\\' := hend
    refine .quoted ?_ ?_
    · cases after with
      | nil =>
        cases htext : o.targetExtension.toList with
        | nil => simp [Closable]
        | cons c rest => simpa [Closable, htext] using hend
      | cons c rest =>
        rw [Closable, hlist, List.getLast?_append] at hs
        rw [Closable, String.toList_ofList, List.getLast?_append]
        simpa [List.getLast?_cons] using hs
    · simp [Quoteless, hlist, hsource, htarget]
  · rw [String.ofList_toList]
    exact .quoted hs (by simp)

theorem inclusionName_decides {scopes : List Scope}
    (hscopes : ∀ scope ∈ scopes, scope.Quoteless) {name : Expr} (h : name.All Expr.Legible) :
    Decides (inclusionNameParts o scopes name) (nameStrings name) := by
  have hunknown : Decides [.bare unresolved] [] := .bare quoteless_unresolved
  cases name with
  | string s => exact replaced_decides ho h
  | path path =>
    obtain ⟨htarget, hend⟩ := ho.targetExtension
    have hlegible : path.Legible := h
    refine .quoted (Closable.append ?_ hend) ?_
    · rw [Closable, String.toList_append]
      simp
    · have hparts : ∀ part ∈ path.parts.filter (· ≠ o.sourceExtension), Quoteless part :=
        fun part hpart => hlegible.quoteless_parts part (List.mem_filter.mp hpart).1
      have hjoined := (Quoteless.intercalate_iff (by decide : Quoteless "/")).mpr hparts
      exact iff_of_true (Quoteless.append_iff.mpr
        ⟨Quoteless.append_iff.mpr ⟨hjoined, by decide⟩, htarget⟩) (by simp [nameStrings])
  | call helper params hash =>
    change Decides [.bare (inclusionName o scopes (.call helper params hash)).text] _
    unfold inclusionName
    by_cases hlookup : helper.spelling = "lookup"
    · simp only [hlookup, if_true]
      rcases params with _ | ⟨first, _ | ⟨second, rest⟩⟩
      · exact hunknown
      · exact hunknown
      · have hsecond : second.All Expr.Legible := h.2.1.2.1
        cases second with
        | path path => exact .bare (quoteless_reference hscopes hsecond)
        | call => exact hunknown
        | string s =>
          rw [nameStrings, if_pos hlookup]
          simp [Decides, Part.Safe, Step.text, Step.pure_def, Expr.literalText, Quoteless]
        | number n => exact .bare (.of_solid hsecond.1)
        | boolean b => exact .bare (Expr.quoteless_boolText b)
        | undefined => exact .bare (by decide : Quoteless "undefined")
        | null => exact .bare (by decide : Quoteless "null")
    · have hstrings : nameStrings (.call helper params hash) = [] := by
        unfold nameStrings
        split <;> simp_all
      simp only [hlookup, if_false, hstrings]
      exact hunknown
  | _ => exact hunknown

end

section
variable {o : Options} {scopes : List Scope} (hscopes : ∀ scope ∈ scopes, scope.Quoteless)
include hscopes

theorem binding_decides {pair : String × Expr} (hkey : Solid pair.1.toList)
    (hvalue : pair.2.All Expr.Legible) :
    Decides ((bindingParts? scopes pair).getD []) (bindingStrings pair.2) := by
  obtain ⟨key, e⟩ := pair
  have hbare : Quoteless (key ++ "=") :=
    Quoteless.append_iff.mpr ⟨.of_solid hkey, by decide⟩
  cases e with
  | path path => exact (argument_decides hscopes hvalue).cons hbare
  | string s => exact (parts_decides hvalue).cons hbare
  | number n => exact (parts_decides hvalue).cons hbare
  | boolean b => exact (parts_decides hvalue).cons hbare
  | _ => exact .nil

theorem context_decides {params : List Expr} (h : ∀ e ∈ params, e.All Expr.Legible) :
    Decides (contextParts scopes params).flatten ((params.take 1).flatMap Expr.strings) := by
  rw [contextParts, ← List.flatMap_def]
  refine .flatMap fun e he => ?_
  have hmark : Decides [.bare "=", .quoted "does-not-work"] [] :=
    (Decides.quoted (by decide) (by decide)).cons (by decide)
  simpa using (argument_decides hscopes (h e (List.mem_of_mem_take he))).append hmark

theorem bindings_decides {hash : List (String × Expr)}
    (hkeys : ∀ pair ∈ hash, Solid pair.1.toList)
    (hvalues : ∀ pair ∈ hash, pair.2.All Expr.Legible) :
    Decides (hash.filterMap (bindingParts? scopes)).flatten
      (hash.flatMap fun pair => bindingStrings pair.2) := by
  have hflat (hash : List (String × Expr)) : (hash.filterMap (bindingParts? scopes)).flatten =
      hash.flatMap fun pair => (bindingParts? scopes pair).getD [] := by
    induction hash with
    | nil => rfl
    | cons pair hash ih =>
      rw [List.flatMap_cons, ← ih]
      cases hpair : bindingParts? scopes pair with
      | none => simp [List.filterMap_cons_none hpair]
      | some line => simp [List.filterMap_cons_some hpair]
  rw [hflat]
  exact .flatMap fun pair hpair =>
    binding_decides hscopes (hkeys pair hpair) (hvalues pair hpair)

theorem inclusion_decides (ho : Quotable o) {name : Expr} (h : name.All Expr.Legible)
    {args : Arguments} (hargs : args.Legible) :
    Decides (inclusionParts o scopes name args) (stringsOf o (.embed name args)) := by
  have hadded : Decides
      (contextParts scopes args.params ++ args.hash.filterMap (bindingParts? scopes)).flatten
      ((args.params.take 1).flatMap Expr.strings ++
        args.hash.flatMap fun pair => bindingStrings pair.2) := by
    rw [List.flatten_append]
    exact (context_decides hscopes (Expr.allParams_iff.mp hargs.1.1)).append
      (bindings_decides hscopes hargs.2 (Expr.allHash_iff.mp hargs.1.2))
  rw [inclusionParts, stringsOf, List.append_assoc]
  refine ((inclusionName_decides ho hscopes h).append ?_).cons (by decide)
  split
  · next hempty =>
    rw [List.isEmpty_iff.mp hempty] at hadded
    exact hadded
  · exact hadded.spaced.cons (by decide)

theorem icon_decides (ho : Quotable o) {args : Arguments} (hargs : args.Legible) :
    Decides (iconParts o scopes args)
      (args.params.flatMap Expr.strings ++
        args.hash.flatMap fun pair => attributeStrings pair.2) := by
  have hparams := Expr.allParams_iff.mp hargs.1.1
  have hvalues := Expr.allHash_iff.mp hargs.1.2
  refine Decides.cons (by decide)
    (.append (.flatMap fun e he => ?_) (.flatMap fun pair hpair => ?_))
  · exact (argument_decides hscopes (hparams e he)).cons (by decide)
  · exact attribute_decides ho (hargs.2 pair hpair) (hvalues pair hpair)

/-- The tag of a statement is safe exactly when the strings that are written into it hold no
double quotes. -/
theorem line_decides (ho : Quotable o) {s : Statement} (hs : s.Legible) {chained : Bool}
    {line : List Part} (hline : Visit.line? o chained ⟨scopes, s⟩ = some line) :
    Decides line (stringsOf o s) := by
  cases s with
  | content text => cases hline
  | comment text => cases hline
  | mustache head args escaped =>
    cases head with
    | path path =>
      simp only [Visit.line?] at hline
      split at hline
      · next hicon =>
        obtain rfl := Option.some.inj hline
        rw [stringsOf, if_pos hicon]
        exact icon_decides hscopes ho hs.2.2
      · cases hline
    | _ => cases hline
  | embed name args =>
    obtain rfl := Option.some.inj hline
    exact inclusion_decides hscopes ho hs.1 hs.2
  | block helper args program inverse =>
    obtain ⟨-, hargs, hnames, -⟩ := hs
    have hparams := Expr.allParams_iff.mp hargs.1.1
    have hfirst : ∀ e ∈ args.params[0]?, e.All Expr.Legible := fun e he =>
      hparams e (List.mem_of_getElem? he)
    have hcondition := condition_decides hscopes hfirst
    simp only [Visit.line?] at hline
    split at hline
    · next hif =>
      obtain rfl := Option.some.inj hline
      rw [stringsOf, if_pos (Or.inl hif)]
      exact hcondition.cons (by cases chained <;> decide)
    next hif =>
    split at hline
    · next hunless =>
      obtain rfl := Option.some.inj hline
      rw [stringsOf, if_pos (Or.inr hunless)]
      exact hcondition.cons (by decide)
    next hunless =>
    rw [stringsOf, if_neg (not_or.mpr ⟨hif, hunless⟩)]
    split at hline
    · next hequal =>
      obtain rfl := Option.some.inj hline
      rw [if_pos hequal]
      exact equal_decides hscopes hparams
    next hequal =>
    rw [if_neg hequal]
    split at hline
    · next hwith =>
      obtain ⟨⟨collection, key, name⟩, shape, rfl⟩ := Option.map_eq_some_iff.mp hline
      rw [if_pos hwith, shape]
      obtain ⟨⟨callee, hash, hcall⟩, hname⟩ := params_of_lookup shape
      have hentry : (Expr.call callee [collection, key] hash).All Expr.Legible :=
        hparams _ (by simp [hcall])
      exact lookup_decides hscopes (.of_solid (hnames name (by simp [hname])))
        hentry.2.1.1 hentry.2.1.2.1
    · cases hline

end

/-- The tag of a statement that is visited stands in the output. It is split into the arguments
that were meant exactly when its parts are safe, and unless the settings are odd this is when none
of the strings that are written into it holds a double quote. -/
theorem tag_split_iff {source : String} {p : Program} {o : Options} {doc : Document}
    (hparse : Program.parse source = .ok p) (hdoc : Document.ofProgram o p = .ok doc) {v : Visit}
    (hv : v ∈ visitsOfBody [] p.body) :
    ∃ chained, ∀ line, v.line? o chained = some line →
      ∃ before tag after, doc.output = Django.Fragment.render (before ++ tag :: after) ∧
        Django.inside tag.render = ' ' :: (spell line ++ [' ']) ∧
        (Django.arguments? (Django.inside tag.render) = some (Django.meantArguments line) ↔
          ∀ part ∈ line, part.Safe) ∧
        (Quotable o →
          (Django.arguments? (Django.inside tag.render) = some (Django.meantArguments line) ↔
            ∀ s ∈ stringsOf o v.statement, Quoteless s)) := by
  obtain ⟨log, hrun, rfl⟩ := Document.ofProgram_eq_ok hdoc
  obtain ⟨chained, own, hown, before, after, hlog⟩ := visitsOfBody_ran o p.body hrun v hv
  have hlegible := (Program.legible_of_parse hparse).statements
  have hstatement : v.statement.Legible := forall_visitsOfBody [] p.body hlegible v hv
  have hscopes : ∀ scope ∈ v.scopes, scope.Quoteless :=
    quoteless_visitsOfBody (by simp) p.body hlegible v hv
  refine ⟨chained, fun line hline => ?_⟩
  obtain ⟨tag, rest, hpieces, hinside⟩ := exists_tag hline hown
  have hsplit := Django.arguments?_spell_iff line
  rw [← hinside] at hsplit
  refine ⟨before, tag, rest ++ after, ?_, hinside, hsplit, fun ho => ?_⟩
  · rw [← List.cons_append, ← hpieces, ← List.append_assoc, hlog]
  · exact hsplit.trans (line_decides hscopes ho hstatement hline)

def quoteInComparison : Statement :=
  .block (.parse "eq") { params := [.path (.parse "a"), .string "x\"y"] }
    (.ofBody [.content "z"]) none

/-- The quote ends the text that is compared, and the tag is not split as it was meant. -/
theorem not_split_quoteInComparison :
    Program.parse "\x7b\x7b# eq a \"x\\\"y\" \x7d\x7dz\x7b\x7b/eq \x7d\x7d" =
        .ok (.ofBody [quoteInComparison]) ∧
      Document.ofProgram {} (.ofBody [quoteInComparison]) = .ok
        { output := "\x7b% if a == \"x\"y\" %\x7dz\x7b% endif %\x7d", diagnostics := [],
          conditionals := 1 } ∧
      ∃ chained line, Visit.line? {} chained ⟨[], quoteInComparison⟩ = some line ∧
        .quoted "x\"y" ∈ line ∧
        ∃ before tag after, Django.Fragment.render (before ++ tag :: after) =
            "\x7b% if a == \"x\"y\" %\x7dz\x7b% endif %\x7d" ∧
          Django.arguments? (Django.inside tag.render) ≠ some (Django.meantArguments line) := by
  have hnormal : (Program.ofBody [quoteInComparison]).Normal := by
    simp only [quoteInComparison, Program.ofBody, Program.Normal, AllBody, AllInverse,
      Statement.All, Statement.Normal, Expr.All, Expr.Normal, Expr.AllParams, Expr.AllHash,
      Arguments.Normal, Arguments.All]
    simp (disch := decide) only [Path.normal_parse]
    simp [Handlebars.Apart]
    decide
  have hexpressible : (Program.ofBody [quoteInComparison]).Expressible := by
    refine ⟨rfl, ?_, by decide⟩
    simp [quoteInComparison, Program.ofBody, AllBody, AllInverse, Statement.All,
      Statement.Expressible, Expr.All, Expr.Expressible, Expr.AllParams, Expr.AllHash,
      Arguments.All]
  have hprint : String.ofList (Program.ofBody [quoteInComparison]).print =
      "\x7b\x7b# eq a \"x\\\"y\" \x7d\x7dz\x7b\x7b/eq \x7d\x7d" := by
    decide +kernel
  have hparse := hprint ▸ Program.parse_print_of_normal hnormal hexpressible
  have hdoc : Document.ofProgram {} (.ofBody [quoteInComparison]) = .ok
      { output := "\x7b% if a == \"x\"y\" %\x7dz\x7b% endif %\x7d", diagnostics := [],
        conditionals := 1 } := rfl
  obtain ⟨chained, hsplit⟩ := tag_split_iff hparse hdoc (v := ⟨[], quoteInComparison⟩)
    List.mem_cons_self
  have hline : Visit.line? {} chained ⟨[], quoteInComparison⟩ =
      some [.bare "if ", .bare "a", .bare " == ", .quoted "x\"y"] := by
    cases chained <;> decide +kernel
  obtain ⟨before, tag, after, houtput, -, -, hquotable⟩ := hsplit _ hline
  refine ⟨hparse, hdoc, chained, _, hline, by simp, before, tag, after, houtput.symm, ?_⟩
  rw [Ne, hquotable (by decide)]
  decide

end Stencil.Conversion
