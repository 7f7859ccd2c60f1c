import Stencil.Proofs.Conversion.Run
import Stencil.Proofs.Handlebars.Seam

/-!
# Documents one after the other

A template is converted outside all scopes and leaves none behind, so two
templates in one source give the two documents in a row. Whether a text at the
seam is written as one piece or as two makes no difference to the output.
-/

namespace Stencil.Django

theorem concat_append (first second : List String) :
    concat (first ++ second) = concat first ++ concat second := by
  induction first with
  | nil => simp [concat]
  | cons s first ih => simp [concat, ih, String.append_assoc]

theorem Fragment.render_append (first second : List Piece) :
    Fragment.render (first ++ second) = Fragment.render first ++ Fragment.render second := by
  simp [Fragment.render, concat_append]

end Stencil.Django

namespace Stencil.Conversion

open Handlebars (Statement Joined)
open Django (Fragment)

theorem statements_append (o : Options) (first second : List Statement) (scopes : List Scope)
    (chained : Bool) :
    statements o (first ++ second) scopes chained =
      (do statements o first scopes chained
          statements o second scopes chained) := by
  induction first with
  | nil => rw [List.nil_append, statements, Step.pure_bind]
  | cons s first ih => rw [List.cons_append, statements, statements, ih, Step.bind_assoc]

theorem statements_append_eq_ok {o : Options} {first second : List Statement}
    {scopes : List Scope} {chained : Bool} {log : Log} :
    statements o (first ++ second) scopes chained = ⟨log, .ok ()⟩ ↔
      ∃ left right, statements o first scopes chained = ⟨left, .ok ()⟩ ∧
        statements o second scopes chained = ⟨right, .ok ()⟩ ∧ log = left ++ right := by
  rw [statements_append, Step.bind_eq_ok]
  constructor
  · rintro ⟨left, _, right, hleft, hright, rfl⟩
    exact ⟨left, right, hleft, hright, rfl⟩
  · rintro ⟨left, right, hleft, hright, rfl⟩
    exact ⟨left, (), right, hleft, hright, rfl⟩

/-- What the log of a whole is made of when it is the logs of two parts but for how its texts are
divided. -/
structure Log.Sum (left right log : Log) : Prop where
  output : Fragment.render log.pieces = Fragment.render left.pieces ++ Fragment.render right.pieces
  diagnostics : log.diagnostics = left.diagnostics ++ right.diagnostics
  conditionals : log.conditionals = left.conditionals + right.conditionals

theorem Log.sum_append (left right : Log) : left.Sum right (left ++ right) where
  output := by rw [Log.append_pieces, Fragment.render_append]
  diagnostics := rfl
  conditionals := rfl

theorem statements_content_cons_eq_ok {o : Options} {text : String} {rest : List Statement}
    {scopes : List Scope} {chained : Bool} {log : Log} :
    statements o (.content text :: rest) scopes chained = ⟨log, .ok ()⟩ ↔
      ∃ more, statements o rest scopes chained = ⟨more, .ok ()⟩ ∧
        log = { fragments := [[.text text]] } ++ more := by
  rw [statements, statement, Step.bind_eq_ok]
  constructor
  · rintro ⟨first, _, more, hfirst, hmore, rfl⟩
    rw [Step.emit_eq_ok.mp hfirst]
    exact ⟨more, hmore, rfl⟩
  · rintro ⟨more, hmore, rfl⟩
    exact ⟨_, (), more, rfl, hmore, rfl⟩

/-- Statements that are put together are converted to the sum of what they were converted to
apart. -/
theorem statements_joined {o : Options} {first second both : List Statement}
    (h : Joined first second both) {scopes : List Scope} {chained : Bool} {left right : Log}
    (hfirst : statements o first scopes chained = ⟨left, .ok ()⟩)
    (hsecond : statements o second scopes chained = ⟨right, .ok ()⟩) :
    ∃ log, statements o both scopes chained = ⟨log, .ok ()⟩ ∧ left.Sum right log := by
  cases h with
  | apart =>
    exact ⟨_, statements_append_eq_ok.mpr ⟨left, right, hfirst, hsecond, rfl⟩,
      Log.sum_append left right⟩
  | touching first second a b =>
    obtain ⟨before, last, hbefore, hlast, rfl⟩ := statements_append_eq_ok.mp hfirst
    obtain ⟨none, hnone, rfl⟩ := statements_content_cons_eq_ok.mp hlast
    obtain ⟨after, hafter, rfl⟩ := statements_content_cons_eq_ok.mp hsecond
    rw [statements] at hnone
    rw [(Step.pure_eq_ok.mp hnone).1]
    refine ⟨_, statements_append_eq_ok.mpr ⟨before, _, hbefore,
      statements_content_cons_eq_ok.mpr ⟨after, hafter, rfl⟩, rfl⟩, ?_⟩
    constructor
    · simp [Fragment.render, Django.concat_append, Django.concat, Django.Piece.render,
        String.append_assoc]
    · simp
    · simp

end Stencil.Conversion

namespace Stencil.Document

open Handlebars (Program)

/-- Two templates in one source give their documents one after the other. -/
theorem ofSource_append (o : Options) (s t : String) {first second : Document}
    (hs : '~' ∉ s.toList ∧ '\\' ∉ s.toList) (ht : '~' ∉ t.toList ∧ '\\' ∉ t.toList)
    (hlast : s.toList.getLast? ≠ some '{')
    (hfirst : ofSource o s = .ok first) (hsecond : ofSource o t = .ok second) :
    ofSource o (s ++ t) = .ok
      { output := first.output ++ second.output
        diagnostics := first.diagnostics ++ second.diagnostics
        conditionals := first.conditionals + second.conditionals } := by
  obtain ⟨p, hp, hpdoc⟩ := ofSource_eq_ok_iff.mp hfirst
  obtain ⟨q, hq, hqdoc⟩ := ofSource_eq_ok_iff.mp hsecond
  obtain ⟨left, hleft, rfl⟩ := ofProgram_eq_ok hpdoc
  obtain ⟨right, hright, rfl⟩ := ofProgram_eq_ok hqdoc
  obtain ⟨r, hr, hjoined⟩ := Program.ofText_append hs ht hlast hp hq
  obtain ⟨log, hlog, hsum⟩ := Conversion.statements_joined hjoined hleft hright
  rw [ofSource_eq_ok_iff]
  refine ⟨r, ?_, ?_⟩
  · rw [Program.parse, String.toList_append, hr]
  · rw [← hsum.output, ← hsum.diagnostics, ← hsum.conditionals, ofProgram, Conversion.program,
      hlog]
    rfl

def chainInText : String :=
  "a\x7b\x7b#if b\x7d\x7dx\x7b\x7belse if c\x7d\x7dy\x7b\x7b/if\x7d\x7dd"

/-- A text before a loop, in which an argument is dropped. -/
def textBeforeLoop : String :=
  "e\x7b\x7b#each f\x7d\x7d\x7b\x7bg h\x7d\x7d\x7b\x7b/each\x7d\x7d"

theorem ofSource_append_textAtSeam :
    ('~' ∉ chainInText.toList ∧ '\\' ∉ chainInText.toList) ∧
      ('~' ∉ textBeforeLoop.toList ∧ '\\' ∉ textBeforeLoop.toList) ∧
      ofSource {} (chainInText ++ textBeforeLoop) = .ok
        { output := "a\x7b% if b %\x7dx\x7b% elif c %\x7dy\x7b% endif %\x7dd" ++
            "e\x7b% for f_i in f %\x7d\x7b\x7b f_i.g \x7d\x7d\x7b% endfor %\x7d"
          diagnostics := [.droppedArguments "g"]
          conditionals := 2 } := by
  have hs : '~' ∉ chainInText.toList ∧ '\\' ∉ chainInText.toList := by decide
  have ht : '~' ∉ textBeforeLoop.toList ∧ '\\' ∉ textBeforeLoop.toList := by decide
  have hfirst : ofSource {} chainInText = .ok
      { output := "a\x7b% if b %\x7dx\x7b% elif c %\x7dy\x7b% endif %\x7dd"
        diagnostics := []
        conditionals := 2 } := ofSource_eq_ok_of_toOption (by decide +kernel)
  have hsecond : ofSource {} textBeforeLoop = .ok
      { output := "e\x7b% for f_i in f %\x7d\x7b\x7b f_i.g \x7d\x7d\x7b% endfor %\x7d"
        diagnostics := [.droppedArguments "g"]
        conditionals := 0 } := ofSource_eq_ok_of_toOption (by decide +kernel)
  exact ⟨hs, ht, ofSource_append {} chainInText textBeforeLoop hs ht (by decide) hfirst hsecond⟩

end Stencil.Document
