import Stencil.Proofs.Conversion.Sites
import Stencil.Proofs.Django.Pieces
import Stencil.Proofs.Handlebars.Soundness

/-!
# Texts stay apart

Every statement writes something, and all that is written for a statement other
than a text stands between tags. So where no text stands directly behind another
in the source, none does in the document, whichever branches the blocks between
them have.
-/

namespace Stencil.Conversion

open Handlebars (Path Expr Arguments Statement Program Apart AllBody AllInverse apart_tail)
open Django (Piece Spaced spaced_cons spaced_append)

/-- What follows the body of a block: nothing, or the inverse behind a mark, which only the rest
of a chain does without. -/
inductive Continued (o : Options) (scopes : List Scope) : Option Program → Log → Prop
  | nothing : Continued o scopes none {}
  | marked {other : Program} {mark : Piece} {body log : Log}
      (isMark : mark ∈ [.elseMark, .emptyMark, .keptElse])
      (main : statements o other.body scopes false = ⟨body, .ok ()⟩)
      (noted : log.diagnostics = body.diagnostics) (written : log.pieces = mark :: body.pieces) :
      Continued o scopes (some other) log
  | chain {other : Program} {body log : Log} (lone : other.isLoneIf = true)
      (main : statements o other.body scopes true = ⟨body, .ok ()⟩)
      (noted : log.diagnostics = body.diagnostics) (written : log.pieces = body.pieces) :
      Continued o scopes (some other) log

section
variable {o : Options} {scopes : List Scope} {inverse : Option Program} {log : Log}

theorem alternative_continued {mark : Piece} (hmark : mark ∈ [.elseMark, .emptyMark, .keptElse])
    (h : alternative scopes mark (branch? o inverse) = ⟨log, .ok ()⟩) :
    Continued o scopes inverse log := by
  rcases alternative_eq_ok h with ⟨hnone, rfl⟩ | ⟨branch, body, hbranch, hbody, rfl⟩
  · rw [inverse_eq_none hnone]
    exact .nothing
  · cases inverse with
    | none => cases hbranch
    | some other =>
      cases hbranch
      rw [branch_convert] at hbody
      exact .marked hmark hbody rfl (by simp [Log.pieces])

theorem chainedAlternative_continued
    (h : chainedAlternative scopes (branch? o inverse) = ⟨log, .ok ()⟩) :
    Continued o scopes inverse log := by
  rcases chainedAlternative_eq_ok h with ⟨hnone, rfl⟩ | ⟨branch, body, hbranch, hbody, rfl⟩
  · rw [inverse_eq_none hnone]
    exact .nothing
  · cases inverse with
    | none => cases hbranch
    | some other =>
      cases hbranch
      rw [branch_convert, branch_loneIf] at hbody
      rw [branch_loneIf]
      cases hlone : other.isLoneIf with
      | true =>
        rw [hlone] at hbody
        exact .chain hlone hbody rfl (by simp [Log.pieces])
      | false =>
        rw [hlone] at hbody
        exact .marked List.mem_cons_self hbody rfl (by simp [Log.pieces])

end

/-- Pieces that begin with a tag and, unless they continue a chain, end with one. -/
structure Bracketed (chained : Bool) (pieces : List Piece) : Prop where
  spaced : Spaced pieces
  first : ∃ opening rest, pieces = opening :: rest ∧ opening.isText = false
  last : chained = false → ∀ piece ∈ pieces.getLast?, piece.isText = false

theorem Bracketed.singleton {chained : Bool} {piece : Piece} (h : piece.isText = false) :
    Bracketed chained [piece] where
  spaced := trivial
  first := ⟨piece, [], rfl, h⟩
  last := by simp [h]

/-- Pieces without a text behind a text, the first of which is a tag, if there is one. -/
def Follows (pieces : List Piece) : Prop :=
  Spaced pieces ∧ ∀ piece ∈ pieces.head?, piece.isText = false

theorem follows_nil : Follows [] :=
  ⟨trivial, by simp⟩

/-- A block is bracketed if its parts are spaced. -/
theorem bracketed_enclose {reading body rest : Log} {opening : Piece} {closing : Option Piece}
    {chained : Bool} (hreading : reading.fragments = []) (hopening : opening.isText = false)
    (hbody : Spaced body.pieces) (hrest : Follows rest.pieces)
    (hclosing : ∀ piece ∈ closing, piece.isText = false)
    (hclosed : chained = false → closing.isSome = true) :
    Bracketed chained (reading.enclose opening body rest closing).pieces := by
  rw [pieces_enclose hreading, List.append_assoc]
  have hend : Spaced (rest.pieces ++ closing.toList) :=
    spaced_append hrest.1 (by cases closing <;> trivial) (.inr (by simpa using hclosing))
  have hhead : ∀ piece ∈ (rest.pieces ++ closing.toList).head?, piece.isText = false := by
    cases hpieces : rest.pieces with
    | nil => simpa using hclosing
    | cons piece pieces => simpa [hpieces] using hrest.2
  refine ⟨?_, ⟨opening, _, rfl, hopening⟩, ?_⟩
  · exact spaced_cons hopening (spaced_append hbody hend (.inr hhead))
  · intro hchained
    obtain ⟨piece, hpiece⟩ := Option.isSome_iff_exists.mp (hclosed hchained)
    have hlast : (opening :: (body.pieces ++ (rest.pieces ++ closing.toList))).getLast? =
        some piece := by
      rw [hpiece, Option.toList_some, ← List.append_assoc, ← List.cons_append,
        List.getLast?_concat]
    rw [hlast]
    simpa using hclosing piece hpiece

theorem isText_of_mark {mark : Piece} (h : mark ∈ [.elseMark, .emptyMark, .keptElse]) :
    mark.isText = false := by
  simp only [List.mem_cons, List.not_mem_nil, or_false] at h
  rcases h with rfl | rfl | rfl <;> rfl

theorem length_of_isLoneIf {body : List Statement} {blockParams : List String}
    (h : Program.isLoneIf ⟨body, blockParams⟩ = true) :
    body.length ≤ 1 ∧ ∀ s ∈ body.head?, s.isContent = false := by
  unfold Program.isLoneIf at h
  split at h
  · next hbody =>
    cases hbody
    simp [Statement.isContent]
  · cases h

theorem loopHeader_isText (names : List String) (items : String) (entries : Bool) :
    (loopHeader names items entries).isText = false := by
  cases entries <;> rfl

theorem Ran.bracketed {o : Options} {helper : Path} {args : Arguments} {program : Program}
    {inverse : Option Program} {scopes : List Scope} {chained : Bool} {log : Log}
    (h : Ran scopes chained (blockOf o helper args program inverse) log)
    (hmain : ∀ scopes body, statements o program.body scopes false = ⟨body, .ok ()⟩ →
      Spaced body.pieces)
    (hrest : ∀ rest, Continued o scopes inverse rest → Follows rest.pieces) :
    Bracketed chained log.pieces := by
  cases h with
  | chain _ head main other =>
    rw [blockOf_main, branch_convert] at main
    apply bracketed_enclose _ _ (hmain _ _ main) (hrest _ (chainedAlternative_continued other))
    · cases chained <;> simp [Piece.isText]
    · cases chained <;> simp
    · simp [(condition_reads scopes _ _ _ head).1]
    · cases chained <;> rfl
  | negated _ head main other =>
    rw [blockOf_main, branch_convert] at main
    apply bracketed_enclose _ rfl (hmain _ _ main) (hrest _ (alternative_continued (by simp) other))
    · simp [Piece.isText]
    · simp
    · simp [(condition_reads scopes _ _ _ head).1]
  | equal _ head main other =>
    rw [blockOf_main, branch_convert] at main
    apply bracketed_enclose _ rfl (hmain _ _ main) (hrest _ (alternative_continued (by simp) other))
    · simp [Piece.isText]
    · simp
    · simp [(argument?_reads scopes _ _ _ head).1]
  | entry _ _ left right main =>
    rw [blockOf_main, branch_convert] at main
    have hbody := hmain _ _ main
    refine bracketed_enclose ?_ rfl hbody follows_nil ?_ ?_
    · simp [(argument_reads scopes _ _ _ left).1, (argument_reads scopes _ _ _ right).1]
    · simp [Piece.isText]
    · simp
  | loop _ head main other =>
    rw [blockOf_main, branch_convert] at main
    apply bracketed_enclose _ (loopHeader_isText _ _ _) (hmain _ _ main)
      (hrest _ (alternative_continued (by simp) other))
    · simp [Piece.isText]
    · simp
    · exact (collection_reads scopes _ _ _ head).1
  | kept _ _ main other =>
    rw [blockOf_main, branch_convert] at main
    apply bracketed_enclose rfl rfl (hmain _ _ main)
      (hrest _ (alternative_continued (by simp) other))
    · simp [Piece.isText]
    · simp

mutual

/-- What a statement other than a text writes stands between tags. -/
theorem statement_bracketed (o : Options) (s : Statement) (hs : s.All Statement.Sound)
    (hcontent : s.isContent = false) {scopes : List Scope} {chained : Bool} {log : Log}
    (h : statement o s scopes chained = ⟨log, .ok ()⟩) : Bracketed chained log.pieces := by
  cases s with
  | content text => cases hcontent
  | comment text =>
    rw [statement] at h
    rw [Step.emit_eq_ok.mp h]
    exact .singleton rfl
  | mustache head args escaped =>
    rw [statement] at h
    obtain ⟨path, rfl, ⟨-, hrun⟩ | ⟨-, value, -, hfragments, -⟩⟩ := mustache_eq_ok h
    · obtain ⟨arguments, attributes, -, -, hfragments, -⟩ := icon_eq_ok hrun
      rw [Log.pieces, hfragments]
      exact .singleton rfl
    · rw [Log.pieces, hfragments]
      exact .singleton rfl
  | embed name args =>
    rw [statement] at h
    obtain ⟨_, _, _, -, -, -, hfragments, -⟩ := inclusion_eq_ok h
    rw [Log.pieces, hfragments]
    exact .singleton rfl
  | block helper args program inverse =>
    obtain ⟨body, blockParams⟩ := program
    obtain ⟨⟨-, -, -, hbody, hother⟩, hsound, hinverse⟩ := Statement.all_block.mp hs
    apply (statement_block_ran h).bracketed
    · intro scopes log hrun
      exact (statements_spaced o body hbody hsound (by simp) hrun).1
    · intro rest hrest
      exact continued_follows o inverse hother hinverse hrest

/-- Statements without a text behind a text write pieces of that kind, and the first is a tag
unless the first statement is a text. -/
theorem statements_spaced (o : Options) (body : List Statement) (hapart : Apart body)
    (hsound : AllBody Statement.Sound body) {scopes : List Scope} {chained : Bool} {log : Log}
    (hchained : chained = true → body.length ≤ 1)
    (h : statements o body scopes chained = ⟨log, .ok ()⟩) :
    Spaced log.pieces ∧
      ((∀ s ∈ body.head?, s.isContent = false) →
        ∀ piece ∈ log.pieces.head?, piece.isText = false) := by
  cases body with
  | nil =>
    rw [statements] at h
    rw [(Step.pure_eq_ok.mp h).1]
    exact ⟨trivial, by simp [Log.pieces]⟩
  | cons s rest =>
    obtain ⟨first, second, hfirst, hsecond, rfl⟩ := statements_cons_eq_ok h
    obtain ⟨hspaced, hhead⟩ := statements_spaced o rest (apart_tail hapart) hsound.2
      (fun hc => by simpa using Nat.le_succ_of_le (hchained hc)) hsecond
    rw [Log.append_pieces]
    cases hcontent : s.isContent with
    | true =>
      have hnext : ∀ t ∈ rest.head?, t.isContent = false := by
        cases rest with
        | nil => simp
        | cons t rest => simpa using hapart.1 hcontent
      obtain ⟨text, rfl⟩ : ∃ text, s = .content text := by
        cases s with
        | content text => exact ⟨text, rfl⟩
        | _ => cases hcontent
      rw [statement] at hfirst
      rw [Step.emit_eq_ok.mp hfirst]
      refine ⟨spaced_append trivial hspaced (.inr (hhead hnext)), fun hbegin => ?_⟩
      cases hbegin _ rfl
    | false =>
      have hbracketed := statement_bracketed o s hsound.1 hcontent hfirst
      refine ⟨spaced_append hbracketed.spaced hspaced ?_, fun _ => ?_⟩
      · cases chained with
        | false => exact .inl (hbracketed.last rfl)
        | true =>
          -- Only a lone statement continues a chain.
          have hnil : rest = [] := by simpa using hchained rfl
          exact .inr (hhead (by simp [hnil]))
      · obtain ⟨opening, more, hpieces, hopening⟩ := hbracketed.first
        simpa [hpieces] using hopening

theorem continued_follows (o : Options) (inverse : Option Program)
    (hapart : ∀ other ∈ inverse, Apart other.body) (hsound : AllInverse Statement.Sound inverse)
    {scopes : List Scope} {log : Log} (h : Continued o scopes inverse log) :
    Follows log.pieces := by
  cases inverse with
  | none =>
    cases h
    exact ⟨trivial, by simp [Log.pieces]⟩
  | some program =>
    obtain ⟨body, blockParams⟩ := program
    have hbody : Apart body := hapart _ rfl
    cases h with
    | marked isMark main _ written =>
      have hmark := isText_of_mark isMark
      have hspaced := (statements_spaced o body hbody hsound (by simp) main).1
      rw [written]
      exact ⟨spaced_cons hmark hspaced, by simpa using hmark⟩
    | chain lone main _ written =>
      obtain ⟨hlength, hhead⟩ := length_of_isLoneIf lone
      obtain ⟨hspaced, hfirst⟩ := statements_spaced o body hbody hsound (fun _ => hlength) main
      rw [written]
      exact ⟨hspaced, hfirst hhead⟩

end

end Stencil.Conversion
