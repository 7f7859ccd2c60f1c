import Stencil.Django.Piece

/-!
# Well-nested templates

The grammar of the templates in which every tag that opens something is closed
again. A conditional has a first branch, any number of further branches under
conditions of their own, and perhaps a last one without a condition; it is
closed once. The text of a tree is the text of its pieces.
-/

namespace Stencil.Django

/-- The head of a loop, over values or over the entries of a mapping. -/
inductive LoopHead
  | values (value collection : String)
  | entries (key value collection : String)
deriving Repr, DecidableEq

def LoopHead.piece : LoopHead → Piece
  | values value collection => .forValues value collection
  | entries key value collection => .forEntries key value collection

mutual

/-- One element of a well-nested template. -/
inductive Node
  | content (text : String)
  | comment (text : String)
  | value (text : String) (safe : Bool)
  | icon (arguments : List String) (attributes : List (String × String))
  | inclusion (name : String) (bindings : List (String × String))
  | conditional (test : Test) (body : List Node) (rest : Arms)
  | loop (head : LoopHead) (body : List Node) (empty : Option (List Node))
  | binding (name collection key : String) (body : List Node)
  /-- A block that is left as it was. -/
  | raw (helper : String) (body : List Node) (otherwise : Option (List Node))

/-- The branches of a conditional behind the first one. -/
inductive Arms
  | done
  | otherwise (body : List Node)
  | elif (condition : String) (body : List Node) (rest : Arms)

end

def Arms.ofOption : Option (List Node) → Arms
  | none => done
  | some body => otherwise body

/-- The number of further branches that have a condition. -/
def Arms.length : Arms → Nat
  | done => 0
  | otherwise _ => 0
  | elif _ _ rest => rest.length + 1

mutual

def Node.pieces : Node → List Piece
  | .content text => [.text text]
  | .comment text => [.comment text]
  | .value text safe => [.output text safe]
  | .icon arguments attributes => [.icon arguments attributes]
  | .inclusion name bindings => [.inclusion name bindings]
  | .conditional test body rest => .ifOpen test :: (piecesOf body ++ rest.pieces ++ [.endIf])
  | .loop head body empty =>
    head.piece :: (piecesOf body ++ piecesBehind .emptyMark empty ++ [.endFor])
  | .binding name collection key body =>
    .withOpen name collection key :: (piecesOf body ++ [.endWith])
  | .raw helper body otherwise =>
    .keptOpen helper :: (piecesOf body ++ piecesBehind .keptElse otherwise ++ [.keptClose helper])

def Arms.pieces : Arms → List Piece
  | .done => []
  | .otherwise body => .elseMark :: piecesOf body
  | .elif condition body rest => .elifOpen condition :: (piecesOf body ++ rest.pieces)

def piecesOf : List Node → List Piece
  | [] => []
  | node :: nodes => node.pieces ++ piecesOf nodes

/-- A branch that is only there with its mark. -/
def piecesBehind (mark : Piece) : Option (List Node) → List Piece
  | none => []
  | some nodes => mark :: piecesOf nodes

end

theorem Arms.pieces_ofOption (body : Option (List Node)) :
    (ofOption body).pieces = piecesBehind .elseMark body := by
  cases body with
  | none => rw [ofOption, pieces, piecesBehind]
  | some nodes => rw [ofOption, pieces, piecesBehind]

def print (nodes : List Node) : String :=
  Fragment.render (piecesOf nodes)

mutual

def Node.contents : Node → List String
  | .content text => [text]
  | .comment _ => []
  | .value _ _ => []
  | .icon _ _ => []
  | .inclusion _ _ => []
  | .conditional _ body rest => contentsOf body ++ rest.contents
  | .loop _ body empty => contentsOf body ++ contentsOfOption empty
  | .binding _ _ _ body => contentsOf body
  | .raw _ body otherwise => contentsOf body ++ contentsOfOption otherwise

def Arms.contents : Arms → List String
  | .done => []
  | .otherwise body => contentsOf body
  | .elif _ body rest => contentsOf body ++ rest.contents

def contentsOf : List Node → List String
  | [] => []
  | node :: nodes => node.contents ++ contentsOf nodes

def contentsOfOption : Option (List Node) → List String
  | none => []
  | some nodes => contentsOf nodes

end

theorem Arms.contents_ofOption (body : Option (List Node)) :
    (ofOption body).contents = contentsOfOption body := by
  cases body with
  | none => rw [ofOption, contents, contentsOfOption]
  | some nodes => rw [ofOption, contents, contentsOfOption]

end Stencil.Django
