import Stencil.Proofs.Conversion.Keys
import Stencil.Proofs.Conversion.Losses
import Stencil.Proofs.Django.Arguments

/-!
# What tags are put together from

A tag is a line of parts: words that are written as they are, and texts between
double quotes. The line of a statement is told from the statement and its
scopes, and what is written for the statement begins with a tag that has this
line between its braces.
-/

namespace Stencil.Handlebars.Expr

open Django (Part spell)

mutual

def parts : Expr → List Part
  | path p => [.bare p.spelling]
  | call helper params hash =>
    .bare ("(" ++ helper.spelling) :: (partsOfParams params ++ partsOfHash hash ++ [.bare ")"])
  | string s => [.quoted s]
  | number n => [.bare n]
  | boolean b => [.bare (boolText b)]
  | undefined => [.bare "undefined"]
  | null => [.bare "null"]

def partsOfParams : List Expr → List Part
  | [] => []
  | e :: params => .bare " " :: (parts e ++ partsOfParams params)

def partsOfHash : List (String × Expr) → List Part
  | [] => []
  | (key, e) :: hash => .bare (" " ++ key ++ "=") :: (parts e ++ partsOfHash hash)

end

mutual

theorem spell_parts : ∀ e : Expr, spell e.parts = e.asWritten.toList
  | path p => by simp [parts, asWritten, Part.spelling]
  | call helper params hash => by
    simp [parts, asWritten, Part.spelling, spell_partsOfParams params, spell_partsOfHash hash]
  | string s => by simp [parts, asWritten, Part.spelling]
  | number n => by simp [parts, asWritten, Part.spelling]
  | boolean b => by simp [parts, asWritten, Part.spelling]
  | undefined => by simp [parts, asWritten, Part.spelling]
  | null => by simp [parts, asWritten, Part.spelling]

theorem spell_partsOfParams :
    ∀ params : List Expr, spell (partsOfParams params) = (paramsAsWritten params).toList
  | [] => by simp [partsOfParams, paramsAsWritten]
  | e :: params => by
    simp [partsOfParams, paramsAsWritten, Part.spelling, spell_parts e,
      spell_partsOfParams params]

theorem spell_partsOfHash :
    ∀ hash : List (String × Expr), spell (partsOfHash hash) = (hashAsWritten hash).toList
  | [] => by simp [partsOfHash, hashAsWritten]
  | (key, e) :: hash => by
    simp [partsOfHash, hashAsWritten, Part.spelling, spell_parts e, spell_partsOfHash hash]

end

end Stencil.Handlebars.Expr

namespace Stencil.Conversion

open Handlebars (Path Expr Arguments Statement Program)
open Django (Part Piece Test spell spell_append)

def referencePart (scopes : List Scope) (path : Path) : Part :=
  .bare (reference scopes path).text

def argumentParts (scopes : List Scope) : Expr → List Part
  | .path path => [referencePart scopes path]
  | e => e.parts

def argumentParts? (scopes : List Scope) : Option Expr → List Part
  | some e => argumentParts scopes e
  | none => [.bare unresolved]

/-- An operand of a condition: a string is written without quotes. -/
def operandParts (scopes : List Scope) : Expr → List Part
  | .path path => [referencePart scopes path]
  | .string s => [.bare s]
  | e => e.parts

def spaced (lines : List (List Part)) : List Part :=
  [Part.bare " "].intercalate lines

def conditionParts (scopes : List Scope) : Option Expr → List Part
  | some (.call helper params _) =>
    if helper.spelling = "condition" then spaced (params.map (operandParts scopes))
    else [.bare unresolved]
  | some e => operandParts scopes e
  | none => [.bare unresolved]

/-- An attribute of an icon is always quoted. -/
def attributeParts (o : Options) : String × Expr → List Part
  | (key, value) => [.bare (" " ++ attributeName key ++ "="),
    .quoted ((attributeText? o.iconClassPrefix value).getD "?")]

def iconParts (o : Options) (scopes : List Scope) (args : Arguments) : List Part :=
  .bare "carbon_icon" :: (args.params.flatMap (fun e => .bare " " :: argumentParts scopes e) ++
    args.hash.flatMap (attributeParts o))

/-- The name of the file that is included: only names that are looked up stand without quotes. -/
def inclusionNameParts (o : Options) (scopes : List Scope) : Expr → List Part
  | .string s =>
    [.quoted (String.ofList (Text.replaceFirst ('.' :: o.sourceExtension.toList)
      ('.' :: o.targetExtension.toList) s.toList))]
  | .path path =>
    [.quoted ("/".intercalate (path.parts.filter (· ≠ o.sourceExtension)) ++ "." ++
      o.targetExtension)]
  | name => [.bare (inclusionName o scopes name).text]

/-- A variable that an include adds, unless it is dropped. -/
def bindingParts? (scopes : List Scope) : String × Expr → Option (List Part)
  | (key, e) => (bindingValue? scopes e).map fun _ => .bare (key ++ "=") :: argumentParts scopes e

/-- What stands for a context that is handed to a partial. -/
def contextParts (scopes : List Scope) (params : List Expr) : List (List Part) :=
  (params.take 1).map fun e => argumentParts scopes e ++ [.bare "=", .quoted "does-not-work"]

def inclusionParts (o : Options) (scopes : List Scope) (name : Expr) (args : Arguments) :
    List Part :=
  let added := contextParts scopes args.params ++ args.hash.filterMap (bindingParts? scopes)
  .bare "include " :: (inclusionNameParts o scopes name ++
    if added.isEmpty then [] else .bare " with " :: spaced added)

/-- The line of the tag that is written for a statement, where strings can be written into it:
an icon, a condition, a comparison, a lookup or an include. -/
def Visit.line? (o : Options) (chained : Bool) (v : Visit) : Option (List Part) :=
  match v.statement with
  | .mustache (.path path) args _ =>
    if path.spelling = o.iconHelper then some (iconParts o v.scopes args) else none
  | .block helper args program _ =>
    if helper.spelling = "if" then
      some (.bare (if chained then "elif " else "if ") :: conditionParts v.scopes args.params[0]?)
    else if helper.spelling = "unless" then
      some (.bare "if not " :: conditionParts v.scopes args.params[0]?)
    else if helper.spelling = "eq" ∨ helper.spelling = "is" then
      some (.bare "if " :: (argumentParts? v.scopes args.params[0]? ++
        .bare " == " :: ((args.params[1]?.map Expr.parts).getD [.bare unresolved])))
    else if helper.spelling = "with" then
      (lookup? args program.blockParams).map fun (collection, key, name) =>
        .bare ("with " ++ name ++ "=") :: (argumentParts v.scopes collection ++
          .bare "|lookup:" :: argumentParts v.scopes key)
    else none
  | .embed name args => some (inclusionParts o v.scopes name args)
  | _ => none

/-- The step gives the text that the parts make up. -/
def Writes (x : Step String) (line : List Part) : Prop :=
  ∀ log text, x = ⟨log, .ok text⟩ → text.toList = spell line

namespace Writes

theorem pure {text : String} {line : List Part} (h : text.toList = spell line) :
    Writes (pure text) line := by
  rintro log same hrun
  obtain ⟨-, rfl⟩ := Step.pure_eq_ok.mp hrun
  exact h

theorem own_text (x : Step String) : Writes x [.bare x.text] := by
  rintro log text hrun
  simp [Step.text_of_eq_ok hrun, Part.spelling]

theorem after_report {x : Step String} {line : List Part} (h : Writes x line) (d : Diagnostic) :
    Writes (do Step.report d; x) line := by
  rintro log text hrun
  obtain ⟨_, _, second, -, hx, -⟩ := Step.bind_eq_ok.mp hrun
  exact h second text hx

end Writes

section
variable (scopes : List Scope)

theorem argument_writes (e : Expr) : Writes (argument scopes e) (argumentParts scopes e) := by
  cases e with
  | path path => exact .own_text _
  | _ => exact .pure (Expr.spell_parts _).symm

theorem argument?_writes (e : Option Expr) :
    Writes (argument? scopes e) (argumentParts? scopes e) := by
  cases e with
  | none => exact .pure (by simp [argumentParts?, Part.spelling])
  | some e => exact argument_writes scopes e

theorem operand_writes (e : Expr) : Writes (operand scopes e) (operandParts scopes e) := by
  cases e with
  | path path => exact .own_text _
  | string s => exact .pure (by simp [Expr.literalText, operandParts, Part.spelling])
  | _ => exact .pure (Expr.spell_parts _).symm

/-- The words of several steps, each with the parts that it is written with. -/
theorem Collects.spells {f : Expr → Step String} {g : List Expr → Step (List String)}
    (h : Collects f g) {line : Expr → List Part} (hf : ∀ e, Writes (f e) (line e))
    {params : List Expr} {log : Log} {words : List String} (hrun : g params = ⟨log, .ok words⟩) :
    words.map String.toList = params.map fun e => spell (line e) := by
  induction params generalizing log words with
  | nil =>
    rw [h.nil] at hrun
    obtain ⟨-, rfl⟩ := Step.pure_eq_ok.mp hrun
    rfl
  | cons e rest ih =>
    obtain ⟨first, word, second, more, hword, hmore, rfl, -⟩ := h.cons_eq_ok hrun
    rw [List.map_cons, List.map_cons, hf e first word hword, ih hmore]

theorem spell_spaced (lines : List (List Part)) :
    spell (spaced lines) = [' '].intercalate (lines.map spell) := by
  rw [spaced]
  induction lines with
  | nil => simp
  | cons line rest ih =>
    cases rest with
    | nil => simp
    | cons next rest =>
      rw [List.intercalate_cons_cons, spell_append, spell_append, ih]
      simp [Part.spelling, List.intercalate_cons_cons]

theorem condition_writes (e : Option Expr) :
    Writes (condition scopes e) (conditionParts scopes e) := by
  have hunknown (e : Option Expr) : Writes (unknownCondition e) [.bare unresolved] :=
    (Writes.pure (by simp [Part.spelling])).after_report _
  cases e with
  | none => exact hunknown none
  | some e =>
    cases e with
    | call helper params hash =>
      simp only [condition, conditionParts]
      split
      · rintro log text hrun
        obtain ⟨first, words, _, hwords, htext, -⟩ := Step.bind_eq_ok.mp hrun
        obtain ⟨-, rfl⟩ := Step.pure_eq_ok.mp htext
        have hspelled := (operands_collects scopes).spells (operand_writes scopes) hwords
        rw [String.toList_intercalate, hspelled, spell_spaced, List.map_map]
        rfl
      · exact hunknown _
    | path path => exact operand_writes scopes (.path path)
    | string s => exact operand_writes scopes (.string s)
    | number n => exact operand_writes scopes (.number n)
    | boolean b => exact operand_writes scopes (.boolean b)
    | undefined => exact operand_writes scopes .undefined
    | null => exact operand_writes scopes .null

theorem inclusionName_writes (o : Options) (name : Expr) :
    Writes (inclusionName o scopes name) (inclusionNameParts o scopes name) := by
  cases name with
  | string s => exact .pure (by simp [inQuotes, inclusionNameParts, Part.spelling])
  | path path => exact .pure (by simp [inQuotes, inclusionNameParts, Part.spelling])
  | _ => exact .own_text _

end

section
variable {o : Options} {scopes : List Scope} {log : Log}

/-- Words behind spaces. -/
theorem toList_concat_spaces (words : List String) :
    (Django.concat (words.map (" " ++ ·))).toList =
      (words.map String.toList).flatMap (' ' :: ·) := by
  induction words with
  | nil => rfl
  | cons word words ih => simp [Django.concat, ih]

theorem iconAttributes_spells {hash : List (String × Expr)} {attributes : List (String × String)}
    (hrun : iconAttributes o hash = ⟨log, .ok attributes⟩) :
    (Django.concat (attributes.map fun (key, value) =>
      " " ++ key ++ "=\"" ++ value ++ "\"")).toList = spell (hash.flatMap (attributeParts o)) := by
  induction hash generalizing log attributes with
  | nil =>
    obtain ⟨-, rfl⟩ := Step.pure_eq_ok.mp hrun
    rfl
  | cons pair rest ih =>
    obtain ⟨key, value⟩ := pair
    obtain ⟨first, text, _, htext, hgather, -⟩ := Step.bind_eq_ok.mp hrun
    obtain ⟨second, more, _, hmore, hpure, -⟩ := Step.bind_eq_ok.mp hgather
    obtain ⟨-, rfl⟩ := Step.pure_eq_ok.mp hpure
    have hvalue : text = (attributeText? o.iconClassPrefix value).getD "?" := by
      unfold attributeText at htext
      split at htext
      · next known hknown =>
        rw [hknown]
        exact (Step.pure_eq_ok.mp htext).2.symm
      · next hnone =>
        obtain ⟨_, _, _, -, hmark, -⟩ := Step.bind_eq_ok.mp htext
        rw [hnone]
        exact (Step.pure_eq_ok.mp hmark).2.symm
    rw [List.map_cons, Django.concat, String.toList_append, ih hmore, List.flatMap_cons,
      spell_append, hvalue]
    simp [attributeParts, Part.spelling]

theorem icon_spells {args : Arguments} {arguments : List String}
    {attributes : List (String × String)} {first second : Log}
    (harguments : iconArguments scopes args.params = ⟨first, .ok arguments⟩)
    (hattributes : iconAttributes o args.hash = ⟨second, .ok attributes⟩) :
    Django.inside (Piece.icon arguments attributes).render =
      ' ' :: (spell (iconParts o scopes args) ++ [' ']) := by
  have hwords := (iconArguments_collects scopes).spells (argument_writes scopes) harguments
  have hparams (params : List Expr) :
      (params.map fun e => spell (argumentParts scopes e)).flatMap (' ' :: ·) =
        spell (params.flatMap fun e => .bare " " :: argumentParts scopes e) := by
    induction params with
    | nil => rfl
    | cons e params ih => simpa [Part.spelling] using ih
  rw [Piece.render, Django.inside_blockTag, String.toList_append, String.toList_append,
    toList_concat_spaces, hwords, hparams, iconAttributes_spells hattributes, iconParts]
  simp [Part.spelling]

theorem bindings_spells {hash : List (String × Expr)} {named : List (String × String)}
    (hrun : bindings scopes hash = ⟨log, .ok named⟩) :
    named.map (fun pair => (Piece.binding pair).toList) =
      (hash.filterMap (bindingParts? scopes)).map spell := by
  induction hash generalizing log named with
  | nil =>
    obtain ⟨-, rfl⟩ := Step.pure_eq_ok.mp hrun
    rfl
  | cons entry rest ih =>
    obtain ⟨key, e⟩ := entry
    rw [bindings] at hrun
    split at hrun
    · next value hsome =>
      obtain ⟨first, text, _, htext, hgather, -⟩ := Step.bind_eq_ok.mp hrun
      obtain ⟨second, more, _, hmore, hpure, -⟩ := Step.bind_eq_ok.mp hgather
      obtain ⟨-, rfl⟩ := Step.pure_eq_ok.mp hpure
      have hvalue : value = argument scopes e := by
        cases e with
        | path path => exact (Option.some.inj hsome).symm
        | string s =>
          rw [← Option.some.inj hsome]
          simp [argument, inQuotes, Expr.asWritten]
        | number n =>
          rw [← Option.some.inj hsome]
          simp [argument, Expr.asWritten]
        | boolean b =>
          rw [← Option.some.inj hsome]
          simp [argument, Expr.asWritten]
        | _ => cases hsome
      rw [hvalue] at htext
      have hparts : bindingParts? scopes (key, e) =
          some (.bare (key ++ "=") :: argumentParts scopes e) := by
        rw [bindingParts?, hsome]
        rfl
      rw [List.map_cons, ih hmore, List.filterMap_cons_some hparts, List.map_cons]
      simp [Piece.binding, Part.spelling, argument_writes scopes e first text htext]
    · next hnone =>
      obtain ⟨_, _, second, -, hmore, -⟩ := Step.bind_eq_ok.mp hrun
      have hparts : bindingParts? scopes (key, e) = none := by
        rw [bindingParts?, hnone]
        rfl
      rw [ih hmore, List.filterMap_cons_none hparts]

theorem contextBinding_spells {name : Expr} {params : List Expr}
    {context : List (String × String)}
    (hrun : contextBinding o scopes name params = ⟨log, .ok context⟩) :
    context.map (fun pair => (Piece.binding pair).toList) =
      (contextParts scopes params).map spell := by
  cases params with
  | nil =>
    obtain ⟨-, rfl⟩ := Step.pure_eq_ok.mp hrun
    rfl
  | cons e rest =>
    obtain ⟨first, text, second, htext, hrest, -⟩ := Step.bind_eq_ok.mp hrun
    split at hrest
    · exact absurd hrest Step.refuse_ne_ok
    · obtain ⟨_, _, _, -, hpure, -⟩ := Step.bind_eq_ok.mp hrest
      obtain ⟨-, rfl⟩ := Step.pure_eq_ok.mp hpure
      simp [contextParts, Piece.binding, Part.spelling, inQuotes,
        argument_writes scopes e first text htext]

theorem inclusion_spells {name : Expr} {args : Arguments} {file : String}
    {context named : List (String × String)} {first second third : Log}
    (hfile : inclusionName o scopes name = ⟨first, .ok file⟩)
    (hcontext : contextBinding o scopes name args.params = ⟨second, .ok context⟩)
    (hnamed : bindings scopes args.hash = ⟨third, .ok named⟩) :
    Django.inside (Piece.inclusion file (context ++ named)).render =
      ' ' :: (spell (inclusionParts o scopes name args) ++ [' ']) := by
  have hadded : (context ++ named).map (fun pair => (Piece.binding pair).toList) =
      (contextParts scopes args.params ++
        args.hash.filterMap (bindingParts? scopes)).map spell := by
    rw [List.map_append, List.map_append, contextBinding_spells hcontext, bindings_spells hnamed]
  have hname := inclusionName_writes scopes o name first file hfile
  generalize hlines : contextParts scopes args.params ++
    args.hash.filterMap (bindingParts? scopes) = lines at hadded
  generalize context ++ named = pairs at hadded
  rw [Piece.render, Django.inside_blockTag, inclusionParts, hlines]
  cases lines with
  | nil =>
    have hnil : pairs = [] := List.map_eq_nil_iff.mp hadded
    simp [hnil, hname, Part.spelling]
  | cons line rest =>
    have hne : pairs.isEmpty = false := by
      cases pairs with
      | nil => simp at hadded
      | cons pair pairs => rfl
    have hwords : [' '].intercalate (pairs.map (String.toList ∘ Piece.binding)) =
        spell (spaced (line :: rest)) := by
      rw [spell_spaced, ← hadded]
      rfl
    simp [hne, hname, hwords, Part.spelling]

/-- A block that opens with a tag is written as this tag and the rest. -/
theorem exists_opening {reading body rest : Log} {opening : Piece} {closing : Option Piece}
    {line : List Part} {words : String} (hreading : reading.fragments = [])
    (hopening : opening.render = Django.blockTag words) (hwords : words.toList = spell line) :
    ∃ tag more, (reading.enclose opening body rest closing).pieces = tag :: more ∧
      Django.inside tag.render = ' ' :: (spell line ++ [' ']) := by
  refine ⟨opening, _, pieces_enclose hreading, ?_⟩
  rw [hopening, Django.inside_blockTag, hwords, List.cons_append]

/-- What is written for a block begins with the tag of its line. -/
theorem exists_tag_block {helper : Path} {args : Arguments} {program : Program}
    {inverse : Option Program} {chained : Bool} {line : List Part}
    (hline : Visit.line? o chained ⟨scopes, .block helper args program inverse⟩ = some line)
    (hrun : statement o (.block helper args program inverse) scopes chained = ⟨log, .ok ()⟩) :
    ∃ tag rest, log.pieces = tag :: rest ∧
      Django.inside tag.render = ' ' :: (spell line ++ [' ']) := by
  cases statement_block_ran hrun with
  | @chain reading _ _ test hhelper head =>
    have hhelper : helper.spelling = "if" := hhelper
    simp only [Visit.line?, hhelper, if_true] at hline
    obtain rfl := Option.some.inj hline
    have htest := condition_writes scopes _ _ _ head
    have hread : (reading ++ { conditionals := 1 }).fragments = [] := by
      simp [(condition_reads scopes _ _ _ head).1]
    cases chained with
    | true => exact exists_opening hread rfl (by simp [Part.spelling, htest])
    | false => exact exists_opening hread rfl (by simp [Part.spelling, htest, Test.render])
  | @negated reading _ _ test hhelper head =>
    have hhelper : helper.spelling = "unless" := hhelper
    simp only [Visit.line?, hhelper] at hline
    obtain rfl := Option.some.inj hline
    have htest := condition_writes scopes _ _ _ head
    have hread : (reading ++ { conditionals := 1 }).fragments = [] := by
      simp [(condition_reads scopes _ _ _ head).1]
    exact exists_opening hread rfl (by simp [Part.spelling, htest, Test.render])
  | @equal reading _ _ left hhelper head =>
    have hhelper : helper.spelling = "eq" ∨ helper.spelling = "is" := hhelper
    have hhead : helper.spelling ≠ "if" ∧ helper.spelling ≠ "unless" := by
      rcases hhelper with h | h <;> simp [h]
    simp only [Visit.line?, hhead.1, hhead.2, hhelper, if_true, if_false] at hline
    obtain rfl := Option.some.inj hline
    have hleft := argument?_writes scopes _ _ _ head
    have hright : ((args.params[1]?.map Expr.asWritten).getD unresolved).toList =
        spell ((args.params[1]?.map Expr.parts).getD [.bare unresolved]) := by
      cases args.params[1]? with
      | none => simp [Part.spelling]
      | some e => simp [Expr.spell_parts]
    have hread : (reading ++ { conditionals := 1 }).fragments = [] := by
      simp [(argument?_reads scopes _ _ _ head).1]
    exact exists_opening hread rfl (by
      simp only [Test.render, String.toList_append, hleft, blockOf_args, hright]
      simp [Part.spelling])
  | @entry first second _ collection key name items text hhelper shape left right =>
    have hhelper : helper.spelling = "with" := hhelper
    have shape : lookup? args program.blockParams = some (collection, key, name) := shape
    have hown : Visit.line? o chained ⟨scopes, .block helper args program inverse⟩ =
        some (.bare ("with " ++ name ++ "=") :: (argumentParts scopes collection ++
          .bare "|lookup:" :: argumentParts scopes key)) := by
      simp [Visit.line?, hhelper, shape]
    obtain rfl := Option.some.inj (hown.symm.trans hline)
    have hleft := argument_writes scopes _ _ _ left
    have hright := argument_writes scopes _ _ _ right
    have hread : (first ++ second).fragments = [] := by
      simp [(argument_reads scopes _ _ _ left).1, (argument_reads scopes _ _ _ right).1]
    exact exists_opening hread rfl (by simp [Part.spelling, hleft, hright])
  | loop hhelper =>
    have hhelper : helper.spelling = "each" := hhelper
    simp [Visit.line?, hhelper] at hline
  | kept hhelper shape =>
    have hhelper : helper.spelling ∉ ["if", "unless", "eq", "is", "each"] := hhelper
    have shape : helper.spelling = "with" → lookup? args program.blockParams = none := shape
    simp only [List.mem_cons, List.not_mem_nil, or_false, not_or] at hhelper
    by_cases hwith : helper.spelling = "with"
    · simp [Visit.line?, hwith, shape hwith] at hline
    · simp [Visit.line?, hhelper, hwith] at hline

/-- What is written for a statement begins with the tag of its line. -/
theorem exists_tag {v : Visit} {chained : Bool} {line : List Part}
    (hline : v.line? o chained = some line)
    (hrun : statement o v.statement v.scopes chained = ⟨log, .ok ()⟩) :
    ∃ tag rest, log.pieces = tag :: rest ∧
      Django.inside tag.render = ' ' :: (spell line ++ [' ']) := by
  obtain ⟨scopes, s⟩ := v
  cases s with
  | content text => cases hline
  | comment text => cases hline
  | mustache head args escaped =>
    cases head with
    | path path =>
      simp only [Visit.line?] at hline
      split at hline
      · next hicon =>
        rw [statement, mustache, if_pos hicon] at hrun
        obtain ⟨first, arguments, _, harguments, hrest, rfl⟩ := Step.bind_eq_ok.mp hrun
        obtain ⟨second, attributes, _, hattributes, hemit, rfl⟩ := Step.bind_eq_ok.mp hrest
        have hf₁ := (iconArguments_reads scopes _ _ _ harguments).1
        have hf₂ := (iconAttributes_reads scopes o _ _ _ hattributes).1
        refine ⟨.icon arguments attributes, [], ?_, ?_⟩
        · simp [Log.pieces, hf₁, hf₂, Step.emit_eq_ok.mp hemit]
        · rw [← Option.some.inj hline]
          exact icon_spells harguments hattributes
      · cases hline
    | _ => cases hline
  | embed name args =>
    obtain ⟨first, file, _, hfile, hbind, rfl⟩ := Step.bind_eq_ok.mp hrun
    obtain ⟨second, context, _, hcontext, hgather, rfl⟩ := Step.bind_eq_ok.mp hbind
    obtain ⟨third, named, _, hnamed, hemit, rfl⟩ := Step.bind_eq_ok.mp hgather
    have hf₁ := (inclusionName_reads scopes o _ _ _ hfile).1
    have hf₂ := (contextBinding_reads scopes o _ _ _ _ hcontext).1
    have hf₃ := (bindings_reads scopes _ _ _ hnamed).1
    refine ⟨.inclusion file (context ++ named), [], ?_, ?_⟩
    · simp [Log.pieces, hf₁, hf₂, hf₃, Step.emit_eq_ok.mp hemit]
    · rw [← Option.some.inj hline]
      exact inclusion_spells hfile hcontext hnamed
  | block helper args program inverse => exact exists_tag_block hline hrun

end

end Stencil.Conversion
