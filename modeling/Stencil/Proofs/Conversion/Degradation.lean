import Stencil.Proofs.Conversion.Losses
import Stencil.Proofs.Conversion.Spacing
import Stencil.Proofs.Conversion.Tokens
import Stencil.Proofs.Handlebars.Provenance

/-!
# Documents that keep silent about what they lost

A piece is complete if it holds no placeholder and has a text in every slot.
Statement by statement, the pieces that are written without a note are complete
exactly when the statements that are visited lose nothing in silence. Inside a
loop this needs the names that the loop introduces, which are there only if its
head is complete. For a whole document it tells whether an empty list of
diagnostics can be relied on.
-/

namespace Stencil.Conversion

open Handlebars (Path Expr Arguments Statement Program AllBody AllInverse)
open Django (Piece)

/-- The pieces of a log are complete exactly if none of these statements loses something. -/
def Tells (o : Options) (log : Log) (found : List Visit) : Prop :=
  (∀ piece ∈ log.pieces, piece.Complete) ↔ ∀ v ∈ found, ¬ Degraded o v

namespace Tells

variable {o : Options}

theorem nil {log : Log} (h : log.fragments = []) : Tells o log [] := by
  simp [Tells, Log.pieces, h]

theorem append {first second : Log} {found more : List Visit} (hfirst : Tells o first found)
    (hsecond : Tells o second more) : Tells o (first ++ second) (found ++ more) := by
  unfold Tells at hfirst hsecond ⊢
  rw [Log.append_pieces, List.forall_mem_append, List.forall_mem_append, hfirst, hsecond]

theorem leave {log : Log} {found : List Visit} (depth : Nat) (h : Tells o log found) :
    Tells o (log.leave depth) found := by
  rwa [Tells, Log.pieces_leave]

theorem single {log : Log} {v : Visit} (piece : Piece) (hlog : log.fragments = [[piece]])
    (h : piece.Complete ↔ ¬ Degraded o v) : Tells o log [v] := by
  simp [Tells, Log.pieces, hlog, h]

end Tells

/-- The placeholder does not arise from dashes. -/
theorem resolved_attributeName {key : String} (h : Resolved key.toList) :
    Resolved (attributeName key).toList := by
  intro hmark
  rw [attributeName, String.toList_ofList, List.infix_map_iff] at hmark
  obtain ⟨part, hpart, hmap⟩ := hmark
  have hsame : part.map (fun c => if c = '-' then '_' else c) = part := by
    refine (List.map_congr_left fun c hc => ?_).trans (List.map_id part)
    have hmem := List.mem_map_of_mem (f := fun c => if c = '-' then '_' else c) hc
    rw [← hmap, toList_unresolved] at hmem
    split at hmem
    · simp at hmem
    · next hdash => simp [hdash]
  rw [hsame] at hmap
  exact h (hmap ▸ hpart)

section
variable {o : Options} {scopes : List Scope} {log : Log}

theorem attributeText_eq_ok {key : String} {e : Expr} {text : String}
    (hrun : attributeText o key e = ⟨log, .ok text⟩) (hquiet : log.diagnostics = []) :
    attributeText? o.iconClassPrefix e = some text := by
  unfold attributeText at hrun
  split at hrun
  · next same hsame => rw [hsame, (Step.pure_eq_ok.mp hrun).2]
  · exact absurd hquiet (Step.diagnostics_ne_nil hrun)

theorem iconAttributes_resolved_iff {hash : List (String × Expr)}
    (hkeys : ∀ pair ∈ hash, Named pair.1) {attributes : List (String × String)}
    (hrun : iconAttributes o hash = ⟨log, .ok attributes⟩) (hquiet : log.diagnostics = []) :
    (∀ pair ∈ attributes, Resolved pair.1.toList ∧ Resolved pair.2.toList) ↔
      ¬ ∃ pair ∈ hash, ∃ text ∈ attributeText? o.iconClassPrefix pair.2,
        ¬ Resolved text.toList := by
  induction hash generalizing log attributes with
  | nil =>
    obtain ⟨-, rfl⟩ := Step.pure_eq_ok.mp hrun
    simp
  | cons entry rest ih =>
    obtain ⟨key, e⟩ := entry
    obtain ⟨first, text, _, htext, hrest, rfl⟩ := Step.bind_eq_ok.mp hrun
    obtain ⟨second, more, _, hmore, hpure, rfl⟩ := Step.bind_eq_ok.mp hrest
    obtain ⟨rfl, rfl⟩ := Step.pure_eq_ok.mp hpure
    rw [Log.append_nil, Log.append_diagnostics, List.append_eq_nil_iff] at hquiet
    obtain ⟨hfirst, hsecond⟩ := hquiet
    rw [List.forall_mem_cons] at hkeys
    have hname := resolved_attributeName hkeys.1.resolved
    rw [List.forall_mem_cons, ih hkeys.2 hmore hsecond]
    simp [hname, attributeText_eq_ok htext hfirst]

theorem icon_complete_iff (hscopes : ∀ scope ∈ scopes, scope.Sound) {args : Arguments}
    (hargs : args.Sound) (hrun : icon o scopes args = ⟨log, .ok ()⟩)
    (hquiet : log.diagnostics = []) :
    ∃ piece, log.fragments = [[piece]] ∧
      (piece.Complete ↔ ¬ (Loses scopes (iconPaths args) ∨
        ∃ pair ∈ args.hash, ∃ text ∈ attributeText? o.iconClassPrefix pair.2,
          ¬ Resolved text.toList)) := by
  obtain ⟨first, arguments, _, harguments, hrest, rfl⟩ := Step.bind_eq_ok.mp hrun
  obtain ⟨second, attributes, _, hattributes, hemit, rfl⟩ := Step.bind_eq_ok.mp hrest
  rw [Step.emit_eq_ok.mp hemit] at hquiet ⊢
  simp only [Log.append_diagnostics, List.append_eq_nil_iff] at hquiet
  obtain ⟨hfirst, hsecond, -⟩ := hquiet
  refine ⟨.icon arguments attributes, ?_, ?_⟩
  · simp [(iconArguments_reads scopes _ _ _ harguments).1,
      (iconAttributes_reads scopes o _ _ _ hattributes).1]
  · have hparams : ∀ e ∈ args.params, e.All Expr.Sound := Expr.allParams_iff.mp hargs.1.1
    have hwords := (iconArguments_collects scopes).resolved_iff
      (fun e he => ⟨_, argument_yields hscopes (hparams e he)⟩) harguments hfirst
    have htexts := iconAttributes_resolved_iff hargs.2 hattributes hsecond
    rw [Piece.complete_iff, Piece.texts, List.forall_mem_append, Piece.forall_mem_pairs, hwords,
      htexts, not_or]
    simp [Piece.slots, iconPaths]

theorem mustache_tells (hscopes : ∀ scope ∈ scopes, scope.Sound) {head : Expr} {args : Arguments}
    {escaped : Bool} (hhead : head.All Expr.Sound) (hargs : args.Sound)
    (hrun : mustache o scopes head args escaped = ⟨log, .ok ()⟩)
    (hquiet : log.diagnostics = []) :
    Tells o log [⟨scopes, .mustache head args escaped⟩] := by
  cases head with
  | path path =>
    simp only [mustache] at hrun
    split at hrun
    · next hicon =>
      obtain ⟨piece, hlog, hpiece⟩ := icon_complete_iff hscopes hargs hrun hquiet
      refine .single piece hlog ?_
      rw [hpiece]
      simp only [Degraded, Forgets, Spoiled, hicon, if_true, true_and]
    · next hicon =>
      split at hrun
      · obtain ⟨reading, value, _, hvalue, hemit, rfl⟩ := Step.bind_eq_ok.mp hrun
        rw [Step.emit_eq_ok.mp hemit] at hquiet ⊢
        have hnamed := (reference_yields hscopes hhead).named_iff hvalue (by simpa using hquiet)
        refine .single (.output value (!escaped)) ?_ ?_
        · simp [(reference_reads scopes _ _ _ hvalue).1]
        · rw [Piece.complete_output, hnamed]
          simp only [Degraded, Forgets, Spoiled, hicon, if_false, false_and, or_false]
      · exact absurd hquiet (Step.diagnostics_ne_nil hrun)
  | _ => exact absurd hrun Step.refuse_ne_ok

theorem inclusionName_resolved_iff (hscopes : ∀ scope ∈ scopes, scope.Sound) {name : Expr}
    (hname : name.All Expr.Sound) {file : String}
    (hrun : inclusionName o scopes name = ⟨log, .ok file⟩) (hquiet : log.diagnostics = []) :
    Resolved file.toList ↔
      ¬ (Loses scopes (inclusionNamePaths name) ∨ Misnamed o name) := by
  have hcomputed {P : Prop} (h : computedName name = ⟨log, .ok file⟩) : P :=
    absurd hquiet (Step.diagnostics_ne_nil h)
  cases name with
  | string s =>
    obtain ⟨-, rfl⟩ := Step.pure_eq_ok.mp hrun
    simp [inclusionNamePaths, Misnamed, inclusionName, Step.text, Step.pure_def]
  | path path =>
    obtain ⟨-, rfl⟩ := Step.pure_eq_ok.mp hrun
    simp [inclusionNamePaths, Misnamed, inclusionName, Step.text, Step.pure_def]
  | call helper params hash =>
    unfold inclusionName at hrun
    unfold inclusionNamePaths Misnamed
    rw [or_false]
    by_cases hlookup : helper.spelling = "lookup"
    · simp only [hlookup, if_true] at hrun ⊢
      rcases params with _ | ⟨first, _ | ⟨second, rest⟩⟩
      · exact hcomputed hrun
      · exact hcomputed hrun
      · have hsecond : second.All Expr.Sound := hname.2.1.2.1
        cases second with
        | path path => exact (reference_yields hscopes hsecond log file hrun hquiet).1
        | call => exact hcomputed hrun
        | _ => exact (operand_yields hscopes hsecond log file hrun hquiet).1
    · simp only [hlookup, if_false] at hrun
      exact hcomputed hrun
  | _ => exact hcomputed hrun

theorem contextBinding_eq_nil {name : Expr} {params : List Expr}
    {context : List (String × String)}
    (hrun : contextBinding o scopes name params = ⟨log, .ok context⟩)
    (hquiet : log.diagnostics = []) : params = [] ∧ context = [] := by
  cases params with
  | nil => exact ⟨rfl, (Step.pure_eq_ok.mp hrun).2.symm⟩
  | cons e rest =>
    obtain ⟨first, text, second, -, hrest, rfl⟩ := Step.bind_eq_ok.mp hrun
    split at hrest
    · exact absurd hrest Step.refuse_ne_ok
    · exact absurd (List.append_eq_nil_iff.mp hquiet).2 (Step.diagnostics_ne_nil hrest)

theorem bindingValue?_yields (hscopes : ∀ scope ∈ scopes, scope.Sound) {e : Expr}
    (he : e.All Expr.Sound) {value : Step String} (hvalue : bindingValue? scopes e = some value) :
    ∃ nothing, Yields value (Loses scopes (argumentPaths e)) nothing := by
  cases e with
  | path path =>
    cases hvalue
    exact ⟨_, reference_yields hscopes he⟩
  | string s =>
    cases hvalue
    exact ⟨False, .name (Expr.named_asWritten (.string s) he) (by simp [argumentPaths]) id⟩
  | number n =>
    cases hvalue
    exact ⟨False, .name he (by simp [argumentPaths]) id⟩
  | boolean b =>
    cases hvalue
    exact ⟨False, .name (Expr.named_boolText b) (by simp [argumentPaths]) id⟩
  | _ => cases hvalue

theorem bindings_resolved_iff (hscopes : ∀ scope ∈ scopes, scope.Sound)
    {hash : List (String × Expr)} (hhash : ∀ pair ∈ hash, Named pair.1 ∧ pair.2.All Expr.Sound)
    {named : List (String × String)} (hrun : bindings scopes hash = ⟨log, .ok named⟩)
    (hquiet : log.diagnostics = []) :
    (∀ pair ∈ named, Resolved pair.1.toList ∧ Resolved pair.2.toList) ↔
      ¬ Loses scopes (hash.flatMap fun binding => argumentPaths binding.2) := by
  induction hash generalizing log named with
  | nil =>
    obtain ⟨-, rfl⟩ := Step.pure_eq_ok.mp hrun
    simp
  | cons entry rest ih =>
    obtain ⟨key, e⟩ := entry
    rw [List.forall_mem_cons] at hhash
    obtain ⟨⟨hkey, he⟩, hrest⟩ := hhash
    rw [bindings] at hrun
    split at hrun
    · next value hsome =>
      obtain ⟨nothing, hyields⟩ := bindingValue?_yields hscopes he hsome
      obtain ⟨first, text, _, htext, hgather, rfl⟩ := Step.bind_eq_ok.mp hrun
      obtain ⟨second, more, _, hmore, hpure, rfl⟩ := Step.bind_eq_ok.mp hgather
      obtain ⟨rfl, rfl⟩ := Step.pure_eq_ok.mp hpure
      rw [Log.append_nil, Log.append_diagnostics, List.append_eq_nil_iff] at hquiet
      obtain ⟨hfirst, hsecond⟩ := hquiet
      rw [List.forall_mem_cons, ih hrest hmore hsecond, (hyields first text htext hfirst).1,
        List.flatMap_cons]
      simp [hkey.resolved]
    · exact absurd hquiet (Step.diagnostics_ne_nil hrun)

theorem inclusion_tells (hscopes : ∀ scope ∈ scopes, scope.Sound) {name : Expr} {args : Arguments}
    (hname : name.All Expr.Sound) (hargs : args.Sound)
    (hrun : inclusion o scopes name args = ⟨log, .ok ()⟩) (hquiet : log.diagnostics = []) :
    Tells o log [⟨scopes, .embed name args⟩] := by
  obtain ⟨first, file, _, hfile, hbind, rfl⟩ := Step.bind_eq_ok.mp hrun
  obtain ⟨second, context, _, hcontext, hgather, rfl⟩ := Step.bind_eq_ok.mp hbind
  obtain ⟨third, named, _, hnamed, hemit, rfl⟩ := Step.bind_eq_ok.mp hgather
  rw [Step.emit_eq_ok.mp hemit] at hquiet ⊢
  simp only [Log.append_diagnostics, List.append_eq_nil_iff] at hquiet
  obtain ⟨hfirst, hsecond, hthird, -⟩ := hquiet
  have hhash : ∀ pair ∈ args.hash, Named pair.1 ∧ pair.2.All Expr.Sound := fun pair hpair =>
    ⟨hargs.2 pair hpair, Expr.allHash_iff.mp hargs.1.2 pair hpair⟩
  have hresolved := inclusionName_resolved_iff hscopes hname hfile hfirst
  have hbindings := bindings_resolved_iff hscopes hhash hnamed hthird
  obtain ⟨hparams, rfl⟩ := contextBinding_eq_nil hcontext hsecond
  refine .single (.inclusion file named) ?_ ?_
  · simp [(inclusionName_reads scopes o _ _ _ hfile).1, (bindings_reads scopes _ _ _ hnamed).1,
      (contextBinding_reads scopes o _ _ _ _ hcontext).1]
  · rw [Piece.complete_iff, Piece.texts, List.forall_mem_cons, Piece.forall_mem_pairs, hresolved,
      hbindings]
    simp [Degraded, Forgets, Spoiled, inclusionPaths, hparams, argumentPaths?, Piece.slots,
      and_right_comm]

end

theorem Log.quiet_enclose {reading body rest : Log} {opening : Piece} {closing : Option Piece} :
    (reading.enclose opening body rest closing).diagnostics = [] ↔
      reading.diagnostics = [] ∧ body.diagnostics = [] ∧ rest.diagnostics = [] := by
  simp [enclose]

theorem complete_mark {mark : Piece} (h : mark ∈ [.elseMark, .emptyMark, .keptElse]) :
    mark.Complete := by
  simp only [List.mem_cons, List.not_mem_nil, or_false] at h
  rcases h with rfl | rfl | rfl <;> exact Piece.complete_of_texts_eq_nil rfl rfl

theorem tells_enclose {o : Options} {reading body rest : Log} {opening : Piece}
    {closing : Option Piece} {v : Visit} {inner other : List Visit}
    (hreading : reading.fragments = []) (hopening : opening.Complete ↔ ¬ Degraded o v)
    (hbody : ¬ Degraded o v → Tells o body inner) (hrest : Tells o rest other)
    (hclosing : ∀ piece ∈ closing, piece.Complete) :
    Tells o (reading.enclose opening body rest closing) (v :: (inner ++ other)) := by
  unfold Tells at hbody hrest ⊢
  have hend : ∀ piece ∈ closing.toList, piece.Complete := by simpa using hclosing
  rw [pieces_enclose hreading, List.append_assoc]
  simp only [List.forall_mem_cons, List.forall_mem_append]
  rw [hopening, hrest, and_iff_left hend]
  exact and_congr_right fun h => by rw [hbody h]

theorem visits_block (scopes : List Scope) (helper : Path) (args : Arguments) (program : Program)
    (inverse : Option Program) :
    visits scopes (.block helper args program inverse) =
      ⟨scopes, .block helper args program inverse⟩ ::
        (visitsOfBody (inside scopes (Opening.of? helper args program)) program.body ++
          if helper.spelling = "with" ∧ (lookup? args program.blockParams).isSome then []
          else visitsOfInverse scopes inverse) := by
  obtain ⟨body, blockParams⟩ := program
  rw [visits]

/-- A block that neither opens a scope nor drops its inverse. -/
theorem visits_block_plain {scopes : List Scope} {helper : Path} {args : Arguments}
    {program : Program} {inverse : Option Program} (heach : helper.spelling ≠ "each")
    (hwith : helper.spelling ≠ "with") :
    visits scopes (.block helper args program inverse) =
      ⟨scopes, .block helper args program inverse⟩ ::
        (visitsOfBody scopes program.body ++ visitsOfInverse scopes inverse) := by
  rw [visits_block, Opening.of?_none heach (fun h => absurd h hwith), if_neg (fun h => hwith h.1)]
  rfl

section
variable {o : Options} {scopes : List Scope} {helper : Path} {args : Arguments} {program : Program}
variable {inverse : Option Program}

theorem degraded_condition (h : helper.spelling = "if" ∨ helper.spelling = "unless") :
    Degraded o ⟨scopes, .block helper args program inverse⟩ ↔
      Loses scopes (conditionPaths args.params[0]?) ∨ AsksNothing scopes args.params[0]? := by
  simp only [Degraded, Forgets, Spoiled, h, if_true, blockPaths_condition h, or_false]

theorem degraded_equal (h : helper.spelling = "eq" ∨ helper.spelling = "is") :
    Degraded o ⟨scopes, .block helper args program inverse⟩ ↔
      args.params.length < 2 ∨ Loses scopes (argumentPaths? args.params[0]?) ∨
        Unnamed scopes (argumentPaths? args.params[0]?) := by
  have hif : ¬ (helper.spelling = "if" ∨ helper.spelling = "unless") := by
    rcases h with h | h <;> simp [h]
  simp only [Degraded, Forgets, Spoiled, hif, if_false, h, true_and,
    blockPaths_argument (h.imp_right Or.inl), or_false]

theorem degraded_loop (h : helper.spelling = "each") :
    Degraded o ⟨scopes, .block helper args program inverse⟩ ↔
      Loses scopes (argumentPaths? args.params[0]?) ∨
        Unnamed scopes (argumentPaths? args.params[0]?) := by
  simp [Degraded, Forgets, Spoiled, h, blockPaths_argument (.inr (.inr h))]

theorem degraded_entry {collection key : Expr} {name : String} (h : helper.spelling = "with")
    (shape : lookup? args program.blockParams = some (collection, key, name)) :
    Degraded o ⟨scopes, .block helper args program inverse⟩ ↔
      (Loses scopes (argumentPaths collection) ∨ Unnamed scopes (argumentPaths collection)) ∨
        Loses scopes (argumentPaths key) ∨ Unnamed scopes (argumentPaths key) := by
  simp only [Degraded, Forgets, Spoiled, blockPaths, h, shape]
  simp [or_or_or_comm]

theorem params_of_lookup {collection key : Expr} {name : String}
    (h : lookup? args program.blockParams = some (collection, key, name)) :
    (∃ helper hash, args.params = [.call helper [collection, key] hash]) ∧
      program.blockParams = [name] := by
  unfold lookup? at h
  split at h
  · next helper first second hash only hparams hnames =>
    split at h
    · cases h
      exact ⟨⟨helper, hash, hparams⟩, hnames⟩
    · cases h
  · cases h

theorem resolved_lastName {items : String} (h : Resolved items.toList) :
    Resolved (lastName items).toList := by
  rw [lastName, String.toList_ofList]
  cases hlast : (Text.fields '.' items.toList).getLast? with
  | none => exact Resolved.nil
  | some field => exact h.of_infix (Text.infix_of_mem_fields (List.mem_of_getLast? hlast))

/-- The scope of a loop over a collection without placeholder. -/
theorem sound_loop {items : String} (hnames : ∀ name ∈ program.blockParams, Named name)
    (hitems : Resolved items.toList) :
    Scope.Sound { names := loopNames program.blockParams items } where
  ne_nil := loopNames_ne_nil _ _
  plain := rfl
  names := by
    unfold loopNames
    split
    · rw [List.forall_mem_singleton]
      refine ⟨by simp, ?_⟩
      simpa [Resolved.append_cons_iff, Resolved.cons_iff] using resolved_lastName hitems
    · exact hnames

/-- The header of a loop lacks nothing if the collection has a name. -/
theorem complete_loopHeader {items : String} (hnames : ∀ name ∈ program.blockParams, Named name)
    (entries : Bool) :
    (loopHeader (loopNames program.blockParams items) items entries).Complete ↔ Named items := by
  have hname (i : Nat) {default : String} (hdefault : Resolved default.toList)
      (hitems : Named items) :
      Resolved ((loopNames program.blockParams items)[i]?.getD default).toList := by
    cases hget : (loopNames program.blockParams items)[i]? with
    | none => exact hdefault
    | some name =>
      exact ((sound_loop hnames hitems.resolved).names name (List.mem_of_getElem? hget)).resolved
  have hvalue := hname 0 (show Resolved "value".toList by simp [Resolved.cons_iff])
  have hkey := hname 1 (show Resolved "key".toList by simp [Resolved.cons_iff])
  cases entries with
  | false => exact Piece.complete_forValues.trans (and_iff_right_of_imp hvalue)
  | true =>
    refine Piece.complete_forEntries.trans ?_
    rw [← and_assoc]
    exact and_iff_right_of_imp fun h => ⟨hkey h, hvalue h⟩

/-- A comparison lacks nothing if it has two arguments and the first has a name. -/
theorem complete_equal (hscopes : ∀ scope ∈ scopes, scope.Sound) (hargs : args.Sound)
    {reading : Log} {left : String}
    (head : argument? scopes args.params[0]? = ⟨reading, .ok left⟩)
    (hquiet : reading.diagnostics = []) :
    (Piece.ifOpen (.equal left ((args.params[1]?.map Expr.asWritten).getD unresolved))).Complete ↔
      ¬ (args.params.length < 2 ∨ Loses scopes (argumentPaths? args.params[0]?) ∨
        Unnamed scopes (argumentPaths? args.params[0]?)) := by
  have hparams := Expr.allParams_iff.mp hargs.1.1
  have hunresolved : ¬ Named unresolved := fun h => not_resolved_unresolved h.resolved
  rw [Piece.complete_ifOpen, Django.Test.sides, List.forall_mem_cons, List.forall_mem_singleton]
  generalize args.params = params at hparams head ⊢
  rcases params with _ | ⟨first, _ | ⟨second, rest⟩⟩
  · simp [hunresolved]
  · simp [hunresolved]
  · rw [List.forall_mem_cons, List.forall_mem_cons] at hparams
    have hleft := (argument_yields hscopes hparams.1).named_iff head hquiet
    have hright : Named second.asWritten := Expr.named_asWritten second hparams.2.1
    simp [hleft, hright, argumentPaths?]

end

section
variable {o : Options} {scopes : List Scope} {chained : Bool} {log : Log}
variable {helper : Path} {args : Arguments} {program : Program} {inverse : Option Program}

theorem Ran.tells (h : Ran scopes chained (blockOf o helper args program inverse) log)
    (hquiet : log.diagnostics = []) (hscopes : ∀ scope ∈ scopes, scope.Sound)
    (hs : (Statement.block helper args program inverse).Sound)
    (hmain : ∀ {scopes body}, (∀ scope ∈ scopes, scope.Sound) →
      statements o program.body scopes false = ⟨body, .ok ()⟩ → body.diagnostics = [] →
      Tells o body (visitsOfBody scopes program.body))
    (hrest : ∀ {rest}, Continued o scopes inverse rest → rest.diagnostics = [] →
      Tells o rest (visitsOfInverse scopes inverse)) :
    Tells o log (visits scopes (.block helper args program inverse)) := by
  obtain ⟨-, hargs, hnames, -⟩ := hs
  have hfirst : ∀ e ∈ args.params[0]?, e.All Expr.Sound := fun e he =>
    Expr.allParams_iff.mp hargs.1.1 e (List.mem_of_getElem? he)
  have hclosing {piece : Piece} (htexts : piece.texts = []) (hslots : piece.slots = []) :
      ∀ closing ∈ some piece, closing.Complete := by
    simpa using Piece.complete_of_texts_eq_nil htexts hslots
  cases h with
  | @chain reading body rest test hhelper head main other =>
    rw [blockOf_helper] at hhelper
    rw [blockOf_args] at head
    rw [blockOf_main, branch_convert] at main
    obtain ⟨hreading, hbody, hother⟩ := Log.quiet_enclose.mp hquiet
    rw [visits_block_plain (by simp [hhelper]) (by simp [hhelper])]
    have hnamed := (condition_yields hscopes hfirst).named_iff head (by simpa using hreading)
    refine tells_enclose ?_ ?_ (fun _ => hmain hscopes main hbody)
      (hrest (chainedAlternative_continued other) hother) ?_
    · simp [(condition_reads scopes _ _ _ head).1]
    · rw [degraded_condition (.inl hhelper), ← hnamed]
      cases chained with
      | true => exact Piece.complete_elifOpen
      | false => simp [Piece.complete_ifOpen, Django.Test.sides]
    · cases chained with
      | true => simp
      | false => exact hclosing rfl rfl
  | @negated reading body rest test hhelper head main other =>
    rw [blockOf_helper] at hhelper
    rw [blockOf_args] at head
    rw [blockOf_main, branch_convert] at main
    obtain ⟨hreading, hbody, hother⟩ := Log.quiet_enclose.mp hquiet
    rw [visits_block_plain (by simp [hhelper]) (by simp [hhelper])]
    have hnamed := (condition_yields hscopes hfirst).named_iff head (by simpa using hreading)
    refine tells_enclose ?_ ?_ (fun _ => hmain hscopes main hbody)
      (hrest (alternative_continued (by simp) other) hother) (hclosing rfl rfl)
    · simp [(condition_reads scopes _ _ _ head).1]
    · rw [degraded_condition (.inr hhelper), ← hnamed]
      simp [Piece.complete_ifOpen, Django.Test.sides]
  | @equal reading body rest left hhelper head main other =>
    rw [blockOf_helper] at hhelper
    rw [blockOf_args] at head
    rw [blockOf_main, branch_convert] at main
    obtain ⟨hreading, hbody, hother⟩ := Log.quiet_enclose.mp hquiet
    rw [visits_block_plain (by rcases hhelper with h | h <;> simp [h])
      (by rcases hhelper with h | h <;> simp [h])]
    refine tells_enclose ?_ ?_ (fun _ => hmain hscopes main hbody)
      (hrest (alternative_continued (by simp) other) hother) (hclosing rfl rfl)
    · simp [(argument?_reads scopes _ _ _ head).1]
    · rw [degraded_equal hhelper]
      exact complete_equal hscopes hargs head (by simpa using hreading)
  | @entry first second body collection key name items text hhelper shape left right main =>
    rw [blockOf_helper] at hhelper
    rw [blockOf_args, blockOf_blockParams] at shape
    rw [blockOf_main, branch_convert] at main
    obtain ⟨hreading, hbody, -⟩ := Log.quiet_enclose.mp hquiet
    obtain ⟨hleft, hright⟩ := List.append_eq_nil_iff.mp hreading
    obtain ⟨⟨call, hash, hparams⟩, honly⟩ := params_of_lookup shape
    have hname : Named name := hnames name (by simp [honly])
    obtain ⟨-, ⟨hcollection, hkey, -⟩, -⟩ :=
      Expr.allParams_iff.mp hargs.1.1 (.call call [collection, key] hash) (by simp [hparams])
    have hitems := (argument_yields hscopes hcollection).named_iff left hleft
    have htext := (argument_yields hscopes hkey).named_iff right hright
    have hinner : ∀ scope ∈ ({ names := [name] } : Scope) :: scopes, scope.Sound :=
      List.forall_mem_cons.mpr ⟨⟨by simp, by simpa using hname, rfl⟩, hscopes⟩
    have hwritten := (hmain hinner main hbody).leave scopes.length
    have hdropped : (if helper.spelling = "with" ∧ (lookup? args program.blockParams).isSome then []
        else visitsOfInverse scopes inverse) = [] :=
      if_pos ⟨hhelper, by rw [shape]; rfl⟩
    rw [visits_block, Opening.of?_entry hhelper shape, hdropped]
    refine tells_enclose ?_ ?_ (fun _ => hwritten) (.nil rfl) (hclosing rfl rfl)
    · simp [(argument_reads scopes _ _ _ left).1, (argument_reads scopes _ _ _ right).1]
    · rw [degraded_entry hhelper shape, Piece.complete_withOpen, hitems, htext]
      rw [and_iff_right hname.resolved, ← not_or]
  | @loop reading body rest items hhelper head main other =>
    rw [blockOf_helper] at hhelper
    rw [blockOf_args] at head
    rw [blockOf_main, branch_convert] at main
    obtain ⟨hreading, hbody, hother⟩ := Log.quiet_enclose.mp hquiet
    rw [visits_block, Opening.of?_loop hhelper, if_neg (by simp [hhelper]), inside,
      Opening.loop_scope head]
    have hnamed := (collection_yields hscopes hfirst).named_iff head hreading
    have hopening : Named items ↔ ¬ Degraded o ⟨scopes, .block helper args program inverse⟩ := by
      rw [degraded_loop hhelper, hnamed]
    -- The names inside come from the collection, so they are known to be names only if it is one.
    refine tells_enclose ?_ ((complete_loopHeader hnames _).trans hopening) ?_
      (hrest (alternative_continued (by simp) other) hother) (hclosing rfl rfl)
    · exact (collection_reads scopes _ _ _ head).1
    · intro hwhole
      have hinner := sound_loop hnames (hopening.mpr hwhole).resolved
      exact (hmain (List.forall_mem_cons.mpr ⟨hinner, hscopes⟩) main hbody).leave scopes.length
  | kept hhelper shape main other =>
    -- A block is never kept without a note.
    simp [Log.enclose] at hquiet

end

mutual

/-- What a statement writes without a note is complete exactly if no statement that is visited
for it loses something. -/
theorem statement_tells (o : Options) (s : Statement) (hs : s.All Statement.Sound)
    {scopes : List Scope} {chained : Bool} {log : Log} (hscopes : ∀ scope ∈ scopes, scope.Sound)
    (h : statement o s scopes chained = ⟨log, .ok ()⟩) (hquiet : log.diagnostics = []) :
    Tells o log (visits scopes s) := by
  cases s with
  | content text =>
    rw [statement] at h
    have htext : Resolved text.toList := hs
    refine .single (.text text) (by rw [Step.emit_eq_ok.mp h]) ?_
    simp [Piece.complete_iff, Piece.texts, Piece.slots, htext, Degraded, Forgets, Spoiled]
  | comment text =>
    rw [statement] at h
    have htext : Resolved text.toList := hs
    refine .single (.comment text) (by rw [Step.emit_eq_ok.mp h]) ?_
    simp [Piece.complete_iff, Piece.texts, Piece.slots, htext, Degraded, Forgets, Spoiled]
  | mustache head args escaped =>
    rw [statement] at h
    rw [visits]
    exact mustache_tells hscopes hs.1 hs.2 h hquiet
  | embed name args =>
    rw [statement] at h
    rw [visits]
    exact inclusion_tells hscopes hs.1 hs.2 h hquiet
  | block helper args program inverse =>
    obtain ⟨body, blockParams⟩ := program
    obtain ⟨hblock, hbody, hinverse⟩ := Statement.all_block.mp hs
    apply (statement_block_ran h).tells hquiet hscopes hblock
    · intro inner log hinner hrun hsilent
      exact statements_tells o body hbody hinner hrun hsilent
    · intro rest hrest hsilent
      exact continued_tells o inverse hinverse hscopes hrest hsilent

theorem statements_tells (o : Options) (body : List Statement)
    (hbody : AllBody Statement.Sound body) {scopes : List Scope} {chained : Bool} {log : Log}
    (hscopes : ∀ scope ∈ scopes, scope.Sound)
    (h : statements o body scopes chained = ⟨log, .ok ()⟩) (hquiet : log.diagnostics = []) :
    Tells o log (visitsOfBody scopes body) := by
  cases body with
  | nil =>
    rw [statements] at h
    rw [(Step.pure_eq_ok.mp h).1, visitsOfBody]
    exact .nil rfl
  | cons s rest =>
    obtain ⟨first, second, hfirst, hsecond, rfl⟩ := statements_cons_eq_ok h
    obtain ⟨hquiet₁, hquiet₂⟩ := List.append_eq_nil_iff.mp hquiet
    rw [visitsOfBody]
    exact (statement_tells o s hbody.1 hscopes hfirst hquiet₁).append
      (statements_tells o rest hbody.2 hscopes hsecond hquiet₂)

theorem continued_tells (o : Options) (inverse : Option Program)
    (hinverse : AllInverse Statement.Sound inverse) {scopes : List Scope} {log : Log}
    (hscopes : ∀ scope ∈ scopes, scope.Sound) (h : Continued o scopes inverse log)
    (hquiet : log.diagnostics = []) : Tells o log (visitsOfInverse scopes inverse) := by
  cases inverse with
  | none =>
    cases h
    exact .nil rfl
  | some program =>
    obtain ⟨body, blockParams⟩ := program
    rw [visitsOfInverse]
    cases h with
    | marked isMark main noted written =>
      have hbody := statements_tells o body hinverse hscopes main (noted ▸ hquiet)
      rw [Tells, written, List.forall_mem_cons, and_iff_right (complete_mark isMark)]
      exact hbody
    | chain lone main noted written =>
      have hbody := statements_tells o body hinverse hscopes main (noted ▸ hquiet)
      rw [Tells, written]
      exact hbody

end

end Stencil.Conversion

namespace Stencil.Document

open Handlebars (Program)
open Conversion (Degraded Forgets Spoiled visitsOfBody)
open Django (Fragment)

/-- A document that is made from a source without the placeholder and that notes nothing holds no
placeholder and has a text in every slot exactly when no statement that is visited is degraded.
Unless the settings have question marks, this is when none of them forgets something. -/
theorem complete_iff_forall_not_degraded (o : Options) (source : String) {doc : Document}
    (hsource : Resolved source.toList) (hdoc : ofSource o source = .ok doc)
    (hquiet : doc.diagnostics = []) :
    ∃ p, Program.parse source = .ok p ∧ doc.output = Fragment.render (piecesOf o p) ∧
      ((Resolved doc.output.toList ∧ ∀ piece ∈ piecesOf o p, "" ∉ piece.slots) ↔
        ∀ v ∈ visitsOfBody [] p.body, ¬ Degraded o v) ∧
      ('?' ∉ o.iconClassPrefix.toList → '?' ∉ o.targetExtension.toList →
        ∀ v ∈ visitsOfBody [] p.body, Degraded o v ↔ Forgets o v) := by
  obtain ⟨p, hread, hprogram⟩ := ofSource_eq_ok_iff.mp hdoc
  obtain ⟨happart, hsound⟩ := Program.sound_parse hsource hread
  have houtput := output_eq_render hprogram
  obtain ⟨log, hrun, rfl⟩ := ofProgram_eq_ok hprogram
  have hpieces : piecesOf o p = log.pieces := by
    rw [piecesOf, Conversion.program, hrun]
  have hspaced := (Conversion.statements_spaced o p.body happart hsound (by simp) hrun).1
  have htells : (∀ piece ∈ log.pieces, piece.Complete) ↔
      ∀ v ∈ visitsOfBody [] p.body, ¬ Degraded o v :=
    Conversion.statements_tells o p.body hsound (by simp) hrun hquiet
  refine ⟨p, hread, houtput, ?_, ?_⟩
  · rw [houtput, hpieces, Django.resolved_render_iff hspaced, ← htells]
    constructor
    · intro h piece hpiece
      exact ⟨h.1 piece hpiece, h.2 piece hpiece⟩
    · intro h
      exact ⟨fun piece hpiece => (h piece hpiece).resolved,
        fun piece hpiece => (h piece hpiece).filled⟩
  · intro hclass htarget v hv
    have hplain : ¬ Spoiled o v.statement :=
      Conversion.not_spoiled hclass htarget
        (Conversion.forall_visitsOfBody [] p.body hsound v hv)
    exact or_iff_left hplain

def loneComparison : String :=
  "\x7b\x7b#eq a\x7d\x7dx\x7b\x7b/eq\x7d\x7d"

/-- Nothing is noted about the argument that is missing, and the placeholder stands for it. -/
theorem not_complete_loneComparison :
    Resolved loneComparison.toList ∧
      ofSource {} loneComparison = .ok
        { output := "\x7b% if a == ??? %\x7dx\x7b% endif %\x7d", diagnostics := [],
          conditionals := 1 } ∧
      ∃ p, Program.parse loneComparison = .ok p ∧ ∃ v ∈ visitsOfBody [] p.body, Forgets {} v := by
  have hsource : Resolved loneComparison.toList := by
    simp [loneComparison, Resolved.cons_iff]
  have hdoc : ofSource {} loneComparison = .ok
      { output := "\x7b% if a == ??? %\x7dx\x7b% endif %\x7d", diagnostics := [],
        conditionals := 1 } :=
    ofSource_eq_ok_of_toOption (by decide +kernel)
  have hmark : ¬ Resolved "\x7b% if a == ??? %\x7dx\x7b% endif %\x7d".toList := by
    decide +kernel
  obtain ⟨p, hread, -, hcomplete, hplain⟩ :=
    complete_iff_forall_not_degraded {} _ hsource hdoc rfl
  refine ⟨hsource, hdoc, p, hread, ?_⟩
  apply Classical.byContradiction
  intro hnone
  have hwhole : ∀ v ∈ visitsOfBody [] p.body, ¬ Degraded {} v := by
    intro v hv hdegraded
    exact hnone ⟨v, hv, (hplain (by simp) (by simp) v hv).mp hdegraded⟩
  exact hmark (hcomplete.mpr hwhole).1

end Stencil.Document
