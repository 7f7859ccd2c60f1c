import Stencil.Proofs.Handlebars.Legibility

/-!
# Expressions as they are written back

Messages and generated templates quote expressions with strings in double
quotes and nothing protected. Without double quotes in its strings, that is the
canonical spelling of an expression, and a tag that holds nothing else is read
as this expression alone.
-/

namespace Stencil.Handlebars

namespace Expr

def Unquoted : Expr → Prop
  | string s => '"' ∉ s.toList
  | _ => True

mutual

/-- Where nothing has to be protected, an expression is written the way it is printed. -/
theorem toList_asWritten : ∀ {e : Expr}, e.All Unquoted → e.asWritten.toList = e.print
  | path p, _ => by rw [asWritten, print]
  | call helper params hash, h => by
    have hparams := toList_paramsAsWritten h.2.1
    have hhash := toList_hashAsWritten h.2.2
    simp [asWritten, print, hparams, hhash]
  | string s, h => by
    have hquote : '"' ∉ s.toList := h
    simp [asWritten, print, protectQuotes_of_not_mem hquote]
  | number n, _ => by rw [asWritten, print]
  | boolean b, _ => by rw [asWritten, print]
  | undefined, _ => by simp [asWritten, print]
  | null, _ => by simp [asWritten, print]

theorem toList_paramsAsWritten : ∀ {params : List Expr}, AllParams Unquoted params →
    (paramsAsWritten params).toList = printParams params
  | [], _ => by simp [paramsAsWritten, printParams]
  | e :: params, h => by
    simp [paramsAsWritten, printParams, toList_asWritten h.1, toList_paramsAsWritten h.2]

theorem toList_hashAsWritten : ∀ {hash : List (String × Expr)}, AllHash Unquoted hash →
    (hashAsWritten hash).toList = printHash hash
  | [], _ => by simp [hashAsWritten, printHash]
  | (key, e) :: hash, h => by
    simp [hashAsWritten, printHash, toList_asWritten h.1, toList_hashAsWritten h.2]

end

/-- An expression that a tag can spell is read back from what is written for it. -/
theorem parse_asWritten {e : Expr} (h : e.All Legible) (hquote : e.All Unquoted) :
    Call.parse e.asWritten.toList = .ok { head := e } := by
  have hlegible : Call.Legible { head := e } :=
    ⟨h, ⟨⟨trivial, trivial⟩, by simp⟩, by simp⟩
  have hprint : Call.print { head := e } = e.print := by
    simp [Call.print, printParams, printHash, printBlockParams]
  rw [toList_asWritten hquote, ← hprint]
  exact Call.parse_print hlegible

end Expr

/-- The head of a statement and its arguments, with all expressions inside them. -/
def Statement.expressions : Statement → List Expr
  | .content _ => []
  | .comment _ => []
  | .mustache head args _ => head.within ++ args.within
  | .block helper args _ _ => .path helper :: args.within
  | .embed name args => name.within ++ args.within

/-- The expression belongs to a statement at some depth. -/
def Expr.OccursIn (e : Expr) (body : List Statement) : Prop :=
  ∃ s : Statement, s.OccursIn body ∧ e ∈ s.expressions

theorem Statement.Legible.of_mem_expressions {s : Statement} (h : s.Legible) :
    ∀ e ∈ s.expressions, e.All Expr.Legible := by
  intro e he
  cases s with
  | content text => cases he
  | comment text => cases he
  | mustache head args escaped =>
    obtain ⟨-, hhead, hargs⟩ := h
    obtain he | he := List.mem_append.mp he
    · exact hhead.of_mem_within e he
    · exact hargs.1.of_mem_within e he
  | block helper args program inverse =>
    obtain ⟨hhelper, hargs, -⟩ := h
    obtain rfl | he := List.mem_cons.mp he
    · exact hhelper
    · exact hargs.1.of_mem_within e he
  | embed name args =>
    obtain ⟨hname, hargs⟩ := h
    obtain he | he := List.mem_append.mp he
    · exact hname.of_mem_within e he
    · exact hargs.1.of_mem_within e he

namespace Program

/-- Whichever expression of a template is written back, a tag that holds nothing else is read as
this expression without arguments or names, unless one of its strings holds a double quote. -/
theorem parse_asWritten_of_occursIn {source : String} {p : Program} {e : Expr}
    (h : parse source = .ok p) (he : e.OccursIn p.body) (hquote : e.All Expr.Unquoted) :
    Call.parse e.asWritten.toList = .ok { head := e } := by
  obtain ⟨s, hs, hmem⟩ := he
  have hlegible := hs.of_allBody (legible_of_parse h).statements
  exact Expr.parse_asWritten (hlegible.of_mem_expressions e hmem) hquote

def spokenCall : Expr :=
  .call (.parse "say") [.string "it's", .call (.parse "../f.g") [.null] []] [("to", .number "-1")]

/-- A tag with this call as an argument, without its braces. -/
def spokenTag : List Char :=
  'x' :: " (say 'it\\'s' (../f.g null) to=-1)".toList

theorem parse_asWritten_of_occursIn_spokenCall : ∃ p,
    parse "\x7b\x7bx (say 'it\\'s' (../f.g null) to=-1)\x7d\x7d" = .ok p ∧
      spokenCall.OccursIn p.body ∧ spokenCall.asWritten = "(say \"it's\" (../f.g null) to=-1)" ∧
        Call.parse spokenCall.asWritten.toList = .ok { head := spokenCall } := by
  have hsource : "\x7b\x7bx (say 'it\\'s' (../f.g null) to=-1)\x7d\x7d".toList =
      '{' :: '{' :: (spokenTag ++ Tag.closingBraces) := by
    decide +kernel
  have htag : Tag.read (spokenTag ++ Tag.closingBraces) =
      .ok (⟨false, .plain spokenTag, false⟩, []) := by
    decide +kernel
  have hlex : Token.lex spokenTag = some (.word ['x'] :: spokenCall.tokens) := by decide +kernel
  have hcall : Call.parse spokenTag =
      .ok { head := .path (.parse "x"), args := ⟨[spokenCall], []⟩ } := by
    rw [Call.parse, hlex]
    rfl
  have hdirective : Directive.ofTag ⟨false, .plain spokenTag, false⟩ =
      .ok (.mustache (.path (.parse "x")) ⟨[spokenCall], []⟩ true) := by
    have htrim : Text.trim spokenTag = spokenTag := by decide +kernel
    change Directive.ofPlain (Text.trim spokenTag) = _
    rw [htrim, spokenTag, Directive.ofPlain_of_letter (by decide) (by decide), ← spokenTag,
      Directive.ofMustache, hcall]
    rfl
  have hread : parse "\x7b\x7bx (say 'it\\'s' (../f.g null) to=-1)\x7d\x7d" =
      .ok (.ofBody [.mustache (.path (.parse "x")) ⟨[spokenCall], []⟩ true]) := by
    refine ofText_eq_ok_iff.mpr ⟨[.mustache (.path (.parse "x")) ⟨[spokenCall], []⟩ true], ?_, rfl⟩
    rw [hsource, Segment.ofSource, Segment.scan_braces, Segment.scanTag_of_read htag,
      Segment.scan_nil]
    exact Nesting.run_of_step hdirective rfl []
  have hoccurs : spokenCall.OccursIn [.mustache (.path (.parse "x")) ⟨[spokenCall], []⟩ true] :=
    ⟨_, .here List.mem_cons_self,
      List.mem_append_right _ (List.mem_append_left _ (List.mem_append_left _ List.mem_cons_self))⟩
  have hquote : spokenCall.All Expr.Unquoted := by
    simp [spokenCall, Expr.All, Expr.AllParams, Expr.AllHash, Expr.Unquoted]
  have hwritten : spokenCall.asWritten = "(say \"it's\" (../f.g null) to=-1)" := by
    decide +kernel
  exact ⟨_, hread, hoccurs, hwritten, parse_asWritten_of_occursIn hread hoccurs hquote⟩

end Program

end Stencil.Handlebars
