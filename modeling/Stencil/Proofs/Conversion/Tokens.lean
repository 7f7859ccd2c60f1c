import Stencil.Proofs.Conversion.Mirror
import Stencil.Proofs.Django.Token

/-!
# Converted templates as Django reads them

The pieces of a document are written one after the other, and Django cuts the
text into tags again. The names, conditions and comments inside the tags come
from the source as they are, so a tag can hold a line feed or the mark that
closes its kind. A document is read back as the pieces it was written from
exactly when no tag does.
-/

namespace Stencil.Django

def Piece.text? : Piece → Option String
  | text content => some content
  | _ => none

theorem LoopHead.text?_piece (head : LoopHead) : head.piece.text? = none := by
  cases head <;> rfl

mutual

/-- The texts of an element are the texts among its pieces. -/
theorem Node.filterMap_pieces : ∀ node : Node, node.pieces.filterMap Piece.text? = node.contents
  | .content text => by rw [Node.pieces, Node.contents]; rfl
  | .comment text => by rw [Node.pieces, Node.contents]; rfl
  | .value text safe => by rw [Node.pieces, Node.contents]; rfl
  | .icon arguments attributes => by rw [Node.pieces, Node.contents]; rfl
  | .inclusion name bindings => by rw [Node.pieces, Node.contents]; rfl
  | .conditional test body rest => by
    simp [Node.pieces, Node.contents, List.filterMap_cons, Piece.text?, filterMap_piecesOf body,
      rest.filterMap_pieces]
  | .loop head body empty => by
    rw [Node.pieces, Node.contents, List.filterMap_cons_none head.text?_piece]
    simp [List.filterMap_cons, Piece.text?, filterMap_piecesOf body,
      filterMap_piecesBehind .emptyMark rfl empty]
  | .binding name collection key body => by
    simp [Node.pieces, Node.contents, List.filterMap_cons, Piece.text?, filterMap_piecesOf body]
  | .raw helper body otherwise => by
    simp [Node.pieces, Node.contents, List.filterMap_cons, Piece.text?, filterMap_piecesOf body,
      filterMap_piecesBehind .keptElse rfl otherwise]

theorem Arms.filterMap_pieces : ∀ rest : Arms, rest.pieces.filterMap Piece.text? = rest.contents
  | .done => by rw [Arms.pieces, Arms.contents]; rfl
  | .otherwise body => by
    simp [Arms.pieces, Arms.contents, List.filterMap_cons, Piece.text?, filterMap_piecesOf body]
  | .elif condition body rest => by
    simp [Arms.pieces, Arms.contents, List.filterMap_cons, Piece.text?, filterMap_piecesOf body,
      rest.filterMap_pieces]

theorem filterMap_piecesOf : ∀ nodes : List Node,
    (piecesOf nodes).filterMap Piece.text? = contentsOf nodes
  | [] => by rw [piecesOf, contentsOf]; rfl
  | node :: nodes => by
    rw [piecesOf, contentsOf, List.filterMap_append, node.filterMap_pieces,
      filterMap_piecesOf nodes]

theorem filterMap_piecesBehind (mark : Piece) (hmark : mark.text? = none) :
    ∀ body : Option (List Node),
      (piecesBehind mark body).filterMap Piece.text? = contentsOfOption body
  | none => by rw [piecesBehind, contentsOfOption]; rfl
  | some nodes => by
    rw [piecesBehind, contentsOfOption, List.filterMap_cons_none hmark, filterMap_piecesOf nodes]

end

end Stencil.Django

namespace Stencil.Document

open Handlebars (Program)
open Conversion (contentsOfBody)
open Django (Piece Token Fragment)

/-- The pieces that the document of a program is written from. -/
def piecesOf (o : Options) (p : Program) : List Piece :=
  (Conversion.program o p [] false).log.pieces

theorem output_eq_render {o : Options} {p : Program} {doc : Document}
    (h : ofProgram o p = .ok doc) : doc.output = Fragment.render (piecesOf o p) := by
  obtain ⟨log, hrun, rfl⟩ := ofProgram_eq_ok h
  rw [piecesOf, Conversion.program, hrun]

/-- The texts among the pieces of a document are the texts of its program. -/
theorem mem_contents_of_text {o : Options} {p : Program} {doc : Document} {content : String}
    (h : ofProgram o p = .ok doc) (hmem : .text content ∈ piecesOf o p) :
    content ∈ contentsOfBody p.body := by
  obtain ⟨log, hrun, -⟩ := ofProgram_eq_ok h
  obtain ⟨nodes, hnodes, hpieces⟩ := Conversion.statements_mirror o p.body hrun
  rw [piecesOf, Conversion.program, hrun, hpieces] at hmem
  rw [← hnodes.contents_eq, ← Django.filterMap_piecesOf]
  exact List.mem_filterMap.mpr ⟨_, hmem, rfl⟩

/-- A document whose texts have no opening braces is read by Django as the pieces it was written
from, every tag as one token, exactly when no tag holds a line feed or the mark that closes its
kind before its end. -/
theorem lex_output_eq_iff (o : Options) (source : String) {p : Program} {doc : Document}
    (hread : Program.parse source = .ok p) (hdoc : ofSource o source = .ok doc)
    (hplain : ∀ content ∈ contentsOfBody p.body, '{' ∉ content.toList) :
    doc.output = Fragment.render (piecesOf o p) ∧
      (Token.lex doc.output.toList = Token.join ((piecesOf o p).map Piece.token) ↔
        ∀ piece ∈ piecesOf o p, piece.Closes) := by
  obtain ⟨q, hq, hprogram⟩ := ofSource_eq_ok_iff.mp hdoc
  cases hread.symm.trans hq
  have houtput := output_eq_render hprogram
  refine ⟨houtput, ?_⟩
  rw [houtput]
  apply Django.lex_render_eq_iff
  intro content hmem
  exact hplain content (mem_contents_of_text hprogram hmem)

def multilineComment : String :=
  "\x7b\x7b! a\nb \x7d\x7d"

/-- The comment is written as a tag of one line would be, and Django takes it for text. -/
theorem not_lexed_multilineComment :
    ∃ p doc, Program.parse multilineComment = .ok p ∧ ofSource {} multilineComment = .ok doc ∧
      (∀ content ∈ contentsOfBody p.body, '{' ∉ content.toList) ∧
      piecesOf {} p = [.comment " a\nb "] ∧ doc.output = "\x7b# a\nb #\x7d" ∧
      Token.lex doc.output.toList ≠ Token.join ((piecesOf {} p).map Piece.token) := by
  have hdoc : ofSource {} multilineComment = .ok
      { output := "\x7b# a\nb #\x7d", diagnostics := [], conditionals := 0 } :=
    ofSource_eq_ok_of_toOption (by decide +kernel)
  have hparsed : (Program.parse multilineComment).toOption.map
      (fun p => (piecesOf {} p, contentsOfBody p.body)) = some ([.comment " a\nb "], []) := by
    decide +kernel
  obtain ⟨p, hread, -⟩ := ofSource_eq_ok_iff.mp hdoc
  rw [hread] at hparsed
  obtain ⟨hpieces, hcontents⟩ := Prod.mk.inj (Option.some.inj hparsed)
  have hplain : ∀ content ∈ contentsOfBody p.body, '{' ∉ content.toList := by
    rw [hcontents]
    simp
  refine ⟨p, _, hread, hdoc, hplain, hpieces, rfl, ?_⟩
  rw [Ne, (lex_output_eq_iff {} _ hread hdoc hplain).2, hpieces]
  intro h
  have hcloses := h (.comment " a\nb ") List.mem_cons_self
  exact hcloses.1 (by decide)

end Stencil.Document
