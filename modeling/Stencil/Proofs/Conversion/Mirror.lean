import Stencil.Document
import Stencil.Proofs.Conversion.Sites
import Stencil.Proofs.Django.Tree

/-!
# Converted programs are well nested

A conversion that succeeds writes the text of a well-nested template that has
the shape of the program. The only elements that change their places are the
conditionals of a chain, which become further branches of the first one, and
the only statements that are lost are those in the inverse of a lookup.
-/

namespace Stencil.Conversion

open Handlebars (Path Expr Arguments Statement Program)
open Django (Piece Node Arms LoopHead piecesOf piecesBehind)

/-- The number of inverses in a row that are a single `if`. -/
def chainLength : Option Program → Nat
  | some ⟨[.block helper _ _ inverse], _⟩ =>
    if helper.spelling = "if" then chainLength inverse + 1 else 0
  | _ => 0

theorem chainLength_of_isLoneIf {program : Program} (h : program.isLoneIf = false) :
    chainLength (some program) = 0 := by
  unfold chainLength
  split
  · next helper args main inverse blockParams heq =>
    cases heq
    have hname : helper.spelling ≠ "if" := of_decide_eq_false h
    rw [if_neg hname]
  · rfl

mutual

/-- The element that a statement becomes inside some scopes. -/
inductive Mirrors (o : Options) : List Scope → Statement → Node → Prop
  | content {scopes : List Scope} {text : String} :
      Mirrors o scopes (.content text) (.content text)
  | comment {scopes : List Scope} {text : String} :
      Mirrors o scopes (.comment text) (.comment text)
  | value {scopes : List Scope} {path : Path} {args : Arguments} {escaped : Bool}
      {value : String} (helper : path.spelling ≠ o.iconHelper)
      (shown : (reference scopes path).result = .ok value) :
      Mirrors o scopes (.mustache (.path path) args escaped) (.value value (!escaped))
  | icon {scopes : List Scope} {path : Path} {args : Arguments} {escaped : Bool}
      {arguments : List String} {attributes : List (String × String)}
      (helper : path.spelling = o.iconHelper)
      (params : (iconArguments scopes args.params).result = .ok arguments)
      (hash : (iconAttributes o args.hash).result = .ok attributes) :
      Mirrors o scopes (.mustache (.path path) args escaped) (.icon arguments attributes)
  | inclusion {scopes : List Scope} {name : Expr} {args : Arguments} {file : String}
      {context named : List (String × String)}
      (head : (inclusionName o scopes name).result = .ok file)
      (params : (contextBinding o scopes name args.params).result = .ok context)
      (hash : (bindings scopes args.hash).result = .ok named) :
      Mirrors o scopes (.embed name args) (.inclusion file (context ++ named))
  | chain {scopes : List Scope} {helper : Path} {args : Arguments} {program : Program}
      {inverse : Option Program} {test : String} {body : List Node} {rest : Arms}
      (spelled : helper.spelling = "if")
      (head : (condition scopes args.params[0]?).result = .ok test)
      (main : MirrorsBody o scopes program.body body)
      (other : MirrorsChain o scopes inverse rest)
      (count : rest.length = chainLength inverse) :
      Mirrors o scopes (.block helper args program inverse) (.conditional (.holds test) body rest)
  | negated {scopes : List Scope} {helper : Path} {args : Arguments} {program : Program}
      {inverse : Option Program} {test : String} {body : List Node} {rest : Option (List Node)}
      (spelled : helper.spelling = "unless")
      (head : (condition scopes args.params[0]?).result = .ok test)
      (main : MirrorsBody o scopes program.body body)
      (other : MirrorsInverse o scopes inverse rest) :
      Mirrors o scopes (.block helper args program inverse)
        (.conditional (.fails test) body (.ofOption rest))
  | equal {scopes : List Scope} {helper : Path} {args : Arguments} {program : Program}
      {inverse : Option Program} {left : String} {body : List Node} {rest : Option (List Node)}
      (spelled : helper.spelling = "eq" ∨ helper.spelling = "is")
      (head : (argument? scopes args.params[0]?).result = .ok left)
      (main : MirrorsBody o scopes program.body body)
      (other : MirrorsInverse o scopes inverse rest) :
      Mirrors o scopes (.block helper args program inverse)
        (.conditional (.equal left ((args.params[1]?.map Expr.asWritten).getD unresolved)) body
          (.ofOption rest))
  | loop {scopes : List Scope} {helper : Path} {args : Arguments} {program : Program}
      {inverse : Option Program} {head : LoopHead} {body : List Node} {rest : Option (List Node)}
      (spelled : helper.spelling = "each")
      (written : head.piece = (Opening.loop args program).header o scopes)
      (main : MirrorsBody o ((Opening.loop args program).scope scopes :: scopes) program.body body)
      (other : MirrorsInverse o scopes inverse rest) :
      Mirrors o scopes (.block helper args program inverse) (.loop head body rest)
  | entry {scopes : List Scope} {helper : Path} {args : Arguments} {program : Program}
      {inverse : Option Program} {collection key : Expr} {name items text : String}
      {body : List Node}
      (spelled : helper.spelling = "with")
      (shape : lookup? args program.blockParams = some (collection, key, name))
      (written : .withOpen name items text = (Opening.entry collection key name).header o scopes)
      (main : MirrorsBody o ({ names := [name] } :: scopes) program.body body) :
      Mirrors o scopes (.block helper args program inverse) (.binding name items text body)
  | raw {scopes : List Scope} {helper : Path} {args : Arguments} {program : Program}
      {inverse : Option Program} {body : List Node} {rest : Option (List Node)}
      (spelled : helper.spelling ∉ ["if", "unless", "eq", "is", "each"])
      (shape : helper.spelling = "with" → lookup? args program.blockParams = none)
      (main : MirrorsBody o scopes program.body body)
      (other : MirrorsInverse o scopes inverse rest) :
      Mirrors o scopes (.block helper args program inverse) (.raw helper.spelling body rest)

inductive MirrorsBody (o : Options) : List Scope → List Statement → List Node → Prop
  | nil {scopes : List Scope} : MirrorsBody o scopes [] []
  | cons {scopes : List Scope} {s : Statement} {rest : List Statement} {node : Node}
      {nodes : List Node} (first : Mirrors o scopes s node)
      (others : MirrorsBody o scopes rest nodes) :
      MirrorsBody o scopes (s :: rest) (node :: nodes)

inductive MirrorsInverse (o : Options) :
    List Scope → Option Program → Option (List Node) → Prop
  | none {scopes : List Scope} : MirrorsInverse o scopes none none
  | some {scopes : List Scope} {program : Program} {nodes : List Node}
      (body : MirrorsBody o scopes program.body nodes) :
      MirrorsInverse o scopes (some program) (some nodes)

/-- The branches that the inverse of an `if` becomes. As long as an inverse is a single `if`,
it adds one branch and goes on with its own inverse. -/
inductive MirrorsChain (o : Options) : List Scope → Option Program → Arms → Prop
  | done {scopes : List Scope} : MirrorsChain o scopes none .done
  | otherwise {scopes : List Scope} {program : Program} {nodes : List Node}
      (last : program.isLoneIf = false)
      (body : MirrorsBody o scopes program.body nodes) :
      MirrorsChain o scopes (some program) (.otherwise nodes)
  | elif {scopes : List Scope} {helper : Path} {args : Arguments} {program : Program}
      {inverse : Option Program} {blockParams : List String} {test : String} {body : List Node}
      {rest : Arms}
      (spelled : helper.spelling = "if")
      (head : (condition scopes args.params[0]?).result = .ok test)
      (main : MirrorsBody o scopes program.body body)
      (other : MirrorsChain o scopes inverse rest) :
      MirrorsChain o scopes (some ⟨[.block helper args program inverse], blockParams⟩)
        (.elif test body rest)

end

/-- A chain has one branch for each of its inverses that is a single `if`. -/
theorem MirrorsChain.length_eq {o : Options} :
    ∀ {scopes : List Scope} {inverse : Option Program} {rest : Arms},
      MirrorsChain o scopes inverse rest → rest.length = chainLength inverse
  | _, _, _, .done => by simp [Arms.length, chainLength]
  | _, _, _, .otherwise hlast _ => by rw [Arms.length, chainLength_of_isLoneIf hlast]
  | _, _, _, .elif name _ _ other => by
    simp [Arms.length, chainLength, name, other.length_eq]

theorem exists_loopHead (names : List String) (items : String) (entries : Bool) :
    ∃ head : LoopHead, head.piece = loopHeader names items entries := by
  cases entries with
  | false => exact ⟨.values _ _, rfl⟩
  | true => exact ⟨.entries _ _ _, rfl⟩

section
variable {o : Options} {helper : Path} {args : Arguments} {program : Program}
variable {inverse : Option Program} {scopes : List Scope} {chained : Bool} {log : Log}

theorem Ran.of_if (spelled : helper.spelling = "if")
    (h : Ran scopes chained (blockOf o helper args program inverse) log) :
    ∃ test body rest, (condition scopes args.params[0]?).result = .ok test ∧
      statements o program.body scopes false = ⟨body, .ok ()⟩ ∧
      chainedAlternative scopes (branch? o inverse) = ⟨rest, .ok ()⟩ ∧
      log.pieces =
        (if chained then .elifOpen test else .ifOpen (.holds test)) ::
          (body.pieces ++ rest.pieces ++
            (if chained then none else some .endIf).toList) := by
  cases h with
  | @chain reading body rest test _ head main other =>
    have hreading : (reading ++ ({ conditionals := 1 } : Log)).fragments = [] := by
      simp [(condition_reads scopes _ _ _ head).1]
    rw [blockOf_main, branch_convert] at main
    rw [blockOf_args] at head
    exact ⟨test, body, rest, by rw [head], main, other, pieces_enclose hreading⟩
  | negated hhelper => simp [spelled] at hhelper
  | equal hhelper => simp [spelled] at hhelper
  | entry hhelper => simp [spelled] at hhelper
  | loop hhelper => simp [spelled] at hhelper
  | kept hhelper => simp [spelled] at hhelper

theorem convert_eq_ok (h : (blockOf o helper args program inverse).main.convert scopes false =
    ⟨log, .ok ()⟩) : statements o program.body scopes false = ⟨log, .ok ()⟩ := by
  rwa [blockOf_main, branch_convert] at h

end

mutual

/-- A statement becomes an element of its shape. -/
theorem statement_mirrors (o : Options) (s : Statement) {scopes : List Scope} {log : Log}
    (h : statement o s scopes false = ⟨log, .ok ()⟩) :
    ∃ node, Mirrors o scopes s node ∧ log.pieces = node.pieces := by
  cases s with
  | content text =>
    rw [statement] at h
    refine ⟨_, .content, ?_⟩
    rw [Step.emit_eq_ok.mp h]
    rfl
  | comment text =>
    rw [statement] at h
    refine ⟨_, .comment, ?_⟩
    rw [Step.emit_eq_ok.mp h]
    rfl
  | mustache head args escaped =>
    rw [statement] at h
    obtain ⟨path, rfl, ⟨hicon, hrun⟩ | ⟨hicon, value, hvalue, hfragments, -⟩⟩ := mustache_eq_ok h
    · obtain ⟨arguments, attributes, hparams, hhash, hfragments, -⟩ := icon_eq_ok hrun
      refine ⟨_, .icon hicon hparams hhash, ?_⟩
      rw [Log.pieces, hfragments]
      rfl
    · refine ⟨_, .value hicon hvalue, ?_⟩
      rw [Log.pieces, hfragments]
      rfl
  | block helper args program inverse =>
    obtain ⟨body, blockParams⟩ := program
    cases statement_block_ran h with
    | @chain reading inner rest test name head main other =>
      obtain ⟨nodes, hnodes, hbody⟩ := statements_mirror o body (convert_eq_ok main)
      obtain ⟨arms, harms, hrest⟩ := chain_mirrors o inverse other
      refine ⟨_, .chain name (Step.result_eq_ok head) hnodes harms harms.length_eq, ?_⟩
      rw [pieces_enclose (by simp [(condition_reads scopes _ _ _ head).1])]
      simp [Node.pieces, hbody, hrest]
    | @negated reading inner rest test name head main other =>
      obtain ⟨nodes, hnodes, hbody⟩ := statements_mirror o body (convert_eq_ok main)
      obtain ⟨last, hlast, hrest⟩ := inverse_mirrors o inverse other
      refine ⟨_, .negated name (Step.result_eq_ok head) hnodes hlast, ?_⟩
      rw [pieces_enclose (by simp [(condition_reads scopes _ _ _ head).1])]
      simp [Node.pieces, Arms.pieces_ofOption, hbody, hrest]
    | @equal reading inner rest left name head main other =>
      obtain ⟨nodes, hnodes, hbody⟩ := statements_mirror o body (convert_eq_ok main)
      obtain ⟨last, hlast, hrest⟩ := inverse_mirrors o inverse other
      refine ⟨_, .equal name (Step.result_eq_ok head) hnodes hlast, ?_⟩
      rw [pieces_enclose (by simp [(argument?_reads scopes _ _ _ head).1])]
      simp [Node.pieces, Arms.pieces_ofOption, hbody, hrest]
    | @entry first second inner collection key binder items text name shape left right main =>
      obtain ⟨nodes, hnodes, hbody⟩ := statements_mirror o body (convert_eq_ok main)
      have hwritten : .withOpen binder items text =
          (Opening.entry collection key binder).header o scopes := by
        rw [Opening.header, Step.text_of_eq_ok left, Step.text_of_eq_ok right]
      refine ⟨_, .entry name shape hwritten hnodes, ?_⟩
      have hleft := (argument_reads scopes _ _ _ left).1
      have hright := (argument_reads scopes _ _ _ right).1
      rw [pieces_enclose (by simp [hleft, hright])]
      simp [Node.pieces, hbody]
    | @loop reading inner rest items name head main other =>
      obtain ⟨nodes, hnodes, hbody⟩ := statements_mirror o body (convert_eq_ok main)
      obtain ⟨last, hlast, hrest⟩ := inverse_mirrors o inverse other
      rw [blockOf_args] at head
      obtain ⟨loopHead, hloop⟩ := exists_loopHead (loopNames blockParams items) items
        (blockParams.length = 2 || inner.marks.contains (scopes.length + 1))
      have hwritten := hloop.trans (Opening.loop_header head (convert_eq_ok main)).symm
      refine ⟨_, .loop name hwritten (by rw [Opening.loop_scope head]; exact hnodes) hlast, ?_⟩
      rw [pieces_enclose (collection_reads scopes _ _ _ head).1]
      simp only [Node.pieces, Log.pieces_leave, hbody, hrest, hloop]
      rfl
    | @kept inner rest name shape main other =>
      obtain ⟨nodes, hnodes, hbody⟩ := statements_mirror o body (convert_eq_ok main)
      obtain ⟨last, hlast, hrest⟩ := inverse_mirrors o inverse other
      refine ⟨_, .raw name shape hnodes hlast, ?_⟩
      rw [pieces_enclose rfl]
      simp [Node.pieces, hbody, hrest]
  | embed name args =>
    rw [statement] at h
    obtain ⟨file, context, named, hfile, hcontext, hnamed, hfragments, -⟩ := inclusion_eq_ok h
    refine ⟨_, .inclusion hfile hcontext hnamed, ?_⟩
    rw [Log.pieces, hfragments]
    rfl

theorem statements_mirror (o : Options) (body : List Statement) {scopes : List Scope} {log : Log}
    (h : statements o body scopes false = ⟨log, .ok ()⟩) :
    ∃ nodes, MirrorsBody o scopes body nodes ∧ log.pieces = piecesOf nodes := by
  cases body with
  | nil =>
    rw [statements] at h
    refine ⟨[], .nil, ?_⟩
    rw [(Step.pure_eq_ok.mp h).1]
    rfl
  | cons s rest =>
    obtain ⟨first, second, hfirst, hsecond, rfl⟩ := statements_cons_eq_ok h
    obtain ⟨node, hnode, hpieces⟩ := statement_mirrors o s hfirst
    obtain ⟨nodes, hnodes, hrest⟩ := statements_mirror o rest hsecond
    refine ⟨node :: nodes, .cons hnode hnodes, ?_⟩
    simp [piecesOf, hpieces, hrest]

theorem inverse_mirrors (o : Options) (inverse : Option Program) {scopes : List Scope}
    {mark : Piece} {log : Log}
    (h : alternative scopes mark (branch? o inverse) = ⟨log, .ok ()⟩) :
    ∃ rest, MirrorsInverse o scopes inverse rest ∧
      log.pieces = piecesBehind mark rest := by
  cases inverse with
  | none =>
    refine ⟨none, .none, ?_⟩
    rw [(Step.pure_eq_ok.mp h).1]
    rfl
  | some program =>
    obtain ⟨body, blockParams⟩ := program
    rcases alternative_eq_ok h with ⟨hnone, -⟩ | ⟨branch, tail, hsome, hbody, rfl⟩
    · cases hnone
    · cases hsome
      rw [branch_convert] at hbody
      obtain ⟨nodes, hnodes, hpieces⟩ := statements_mirror o body hbody
      exact ⟨some nodes, .some hnodes, by simp [piecesBehind, hpieces]⟩

/-- An `if` that continues a chain becomes a further branch, with those of its own inverse. -/
theorem link_mirrors (o : Options) (s : Statement) {blockParams : List String}
    (hlone : Program.isLoneIf ⟨[s], blockParams⟩ = true) {scopes : List Scope} {log : Log}
    (h : statement o s scopes true = ⟨log, .ok ()⟩) :
    ∃ rest, MirrorsChain o scopes (some ⟨[s], blockParams⟩) rest ∧
      log.pieces = rest.pieces := by
  cases s with
  | block helper args program inverse =>
    obtain ⟨body, params⟩ := program
    have name : helper.spelling = "if" := of_decide_eq_true hlone
    obtain ⟨test, inner, rest, head, main, other, hpieces⟩ := (statement_block_ran h).of_if name
    obtain ⟨nodes, hnodes, hinner⟩ := statements_mirror o body main
    obtain ⟨arms, harms, hrest⟩ := chain_mirrors o inverse other
    refine ⟨_, .elif name head hnodes harms, ?_⟩
    simp [Arms.pieces, hpieces, hinner, hrest]
  | _ => cases hlone

/-- The inverse of an `if` becomes the further branches of the conditional. -/
theorem chain_mirrors (o : Options) (inverse : Option Program) {scopes : List Scope} {log : Log}
    (h : chainedAlternative scopes (branch? o inverse) = ⟨log, .ok ()⟩) :
    ∃ rest, MirrorsChain o scopes inverse rest ∧ log.pieces = rest.pieces := by
  cases inverse with
  | none =>
    refine ⟨.done, .done, ?_⟩
    rw [(Step.pure_eq_ok.mp h).1]
    rfl
  | some program =>
    obtain ⟨body, blockParams⟩ := program
    rcases chainedAlternative_eq_ok h with ⟨hnone, -⟩ | ⟨branch, tail, hsome, hbody, rfl⟩
    · cases hnone
    cases hsome
    rw [branch_convert, branch_loneIf] at hbody
    rw [branch_loneIf]
    cases hlone : Program.isLoneIf ⟨body, blockParams⟩ with
    | false =>
      rw [hlone] at hbody
      obtain ⟨nodes, hnodes, hpieces⟩ := statements_mirror o body hbody
      exact ⟨.otherwise nodes, .otherwise hlone hnodes, by simp [Arms.pieces, hpieces]⟩
    | true =>
      -- A single `if` is written without a mark, as further branches of the same conditional.
      rw [hlone] at hbody
      rcases body with _ | ⟨s, _ | ⟨t, rest⟩⟩
      · cases hlone
      · obtain ⟨first, second, hfirst, hsecond, rfl⟩ := statements_cons_eq_ok hbody
        rw [statements] at hsecond
        obtain ⟨arms, harms, hpieces⟩ := link_mirrors o s hlone hfirst
        exact ⟨arms, harms, by simp [(Step.pure_eq_ok.mp hsecond).1, hpieces]⟩
      · simp [Program.isLoneIf] at hlone

end

mutual

/-- The texts in a statement, in the order of the source, without those in the inverse of a
lookup. -/
def contentsOf : Statement → List String
  | .content text => [text]
  | .comment _ => []
  | .mustache _ _ _ => []
  | .block helper args ⟨body, blockParams⟩ inverse =>
    contentsOfBody body ++
      if helper.spelling = "with" ∧ (lookup? args blockParams).isSome then []
      else contentsOfInverse inverse
  | .embed _ _ => []

def contentsOfBody : List Statement → List String
  | [] => []
  | s :: rest => contentsOf s ++ contentsOfBody rest

def contentsOfInverse : Option Program → List String
  | none => []
  | some ⟨body, _⟩ => contentsOfBody body

end

theorem contentsOf_block (helper : Path) (args : Arguments) (program : Program)
    (inverse : Option Program) :
    contentsOf (.block helper args program inverse) =
      contentsOfBody program.body ++
        if helper.spelling = "with" ∧ (lookup? args program.blockParams).isSome then []
        else contentsOfInverse inverse := by
  obtain ⟨body, blockParams⟩ := program
  rw [contentsOf]

theorem contentsOfInverse_some (program : Program) :
    contentsOfInverse (some program) = contentsOfBody program.body := by
  obtain ⟨body, blockParams⟩ := program
  rw [contentsOfInverse]

mutual

/-- No text is lost, added or moved. -/
theorem Mirrors.contents_eq {o : Options} :
    ∀ {scopes : List Scope} {s : Statement} {node : Node}, Mirrors o scopes s node →
      node.contents = contentsOf s
  | _, _, _, .content => by rw [Node.contents, contentsOf]
  | _, _, _, .comment => by rw [Node.contents, contentsOf]
  | _, _, _, .value .. => by rw [Node.contents, contentsOf]
  | _, _, _, .icon .. => by rw [Node.contents, contentsOf]
  | _, _, _, .inclusion .. => by rw [Node.contents, contentsOf]
  | _, _, _, .chain name _ main other _ => by
    rw [Node.contents, contentsOf_block, main.contents_eq, other.contents_eq]
    simp [name]
  | _, _, _, .negated name _ main other => by
    rw [Node.contents, contentsOf_block, main.contents_eq, Arms.contents_ofOption,
      other.contents_eq]
    simp [name]
  | _, _, _, .equal name _ main other => by
    rw [Node.contents, contentsOf_block, main.contents_eq, Arms.contents_ofOption,
      other.contents_eq]
    rcases name with name | name <;> simp [name]
  | _, _, _, .loop name _ main other => by
    rw [Node.contents, contentsOf_block, main.contents_eq, other.contents_eq]
    simp [name]
  | _, _, _, .entry name shape _ main => by
    rw [Node.contents, contentsOf_block, main.contents_eq]
    simp [name, shape]
  | _, _, _, .raw name shape main other => by
    rw [Node.contents, contentsOf_block, main.contents_eq, other.contents_eq, if_neg]
    rintro ⟨hwith, hlookup⟩
    simp [shape hwith] at hlookup

theorem MirrorsBody.contents_eq {o : Options} :
    ∀ {scopes : List Scope} {body : List Statement} {nodes : List Node},
      MirrorsBody o scopes body nodes → Django.contentsOf nodes = contentsOfBody body
  | _, _, _, .nil => by rw [Django.contentsOf, contentsOfBody]
  | _, _, _, .cons first others => by
    rw [Django.contentsOf, contentsOfBody, first.contents_eq, others.contents_eq]

theorem MirrorsInverse.contents_eq {o : Options} :
    ∀ {scopes : List Scope} {inverse : Option Program} {rest : Option (List Node)},
      MirrorsInverse o scopes inverse rest →
        Django.contentsOfOption rest = contentsOfInverse inverse
  | _, _, _, .none => by rw [Django.contentsOfOption, contentsOfInverse]
  | _, _, _, .some body => by
    rw [Django.contentsOfOption, contentsOfInverse_some, body.contents_eq]

theorem MirrorsChain.contents_eq {o : Options} :
    ∀ {scopes : List Scope} {inverse : Option Program} {rest : Arms},
      MirrorsChain o scopes inverse rest → rest.contents = contentsOfInverse inverse
  | _, _, _, .done => by rw [Arms.contents, contentsOfInverse]
  | _, _, _, .otherwise _ body => by
    rw [Arms.contents, contentsOfInverse_some, body.contents_eq]
  | _, _, _, .elif name _ main other => by
    rw [Arms.contents, contentsOfInverse_some, contentsOfBody, contentsOfBody, contentsOf_block,
      main.contents_eq, other.contents_eq]
    simp [name]

end

end Stencil.Conversion

namespace Stencil.Document

open Handlebars (Program)
open Conversion (MirrorsBody contentsOfBody)

/-- A document is the text of a well-nested template that mirrors its program and has the same
texts in the same order. -/
theorem output_eq_print (o : Options) (p : Program) {doc : Document}
    (h : ofProgram o p = .ok doc) :
    ∃ nodes, doc.output = Django.print nodes ∧ MirrorsBody o [] p.body nodes ∧
      Django.contentsOf nodes = contentsOfBody p.body := by
  obtain ⟨log, hrun, rfl⟩ := ofProgram_eq_ok h
  obtain ⟨nodes, hnodes, hpieces⟩ := Conversion.statements_mirror o p.body hrun
  exact ⟨nodes, by rw [Django.print, hpieces], hnodes, hnodes.contents_eq⟩

def chainAndLookup : Program :=
  let path := fun name : String => Handlebars.Expr.path (.parse name)
  .ofBody [
    .block (.parse "if") { params := [path "a"] } (.ofBody [.content "x"])
      (some (.ofBody [
        .block (.parse "if") { params := [path "b"] } (.ofBody [.content "y"])
          (some (.ofBody [.content "z"]))])),
    .block (.parse "with") { params := [.call (.parse "lookup") [path "m", path "k"] []] }
      ⟨[.content "in"], ["n"]⟩ (some (.ofBody [.content "out"]))]

theorem output_eq_print_chainAndLookup :
    ∃ nodes, Django.print nodes =
        "\x7b% if a %\x7dx\x7b% elif b %\x7dy\x7b% else %\x7dz\x7b% endif %\x7d" ++
          "\x7b% with n=m|lookup:k %\x7din\x7b% endwith %\x7d" ∧
      MirrorsBody {} [] chainAndLookup.body nodes ∧
      Django.contentsOf nodes = ["x", "y", "z", "in"] := by
  obtain ⟨nodes, houtput, hmirrors, hcontents⟩ := output_eq_print {} chainAndLookup rfl
  refine ⟨nodes, ?_, hmirrors, ?_⟩
  · rw [← houtput]
    decide +kernel
  · rw [hcontents]
    decide +kernel

end Stencil.Document
