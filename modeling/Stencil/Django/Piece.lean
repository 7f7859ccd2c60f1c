/-!
# Pieces of a Django template

Everything a conversion writes is one of these pieces. Names, conditions and
arguments are texts that are written as they are; nothing is escaped.
-/

namespace Stencil.Django

inductive Test
  | holds (condition : String)
  | fails (condition : String)
  | equal (left right : String)
deriving Repr, DecidableEq

namespace Test

def render : Test → String
  | holds c => c
  | fails c => "not " ++ c
  | equal l r => l ++ " == " ++ r

end Test

/-- One text, tag or marker. -/
inductive Piece
  | text (content : String)
  | comment (content : String)
  | output (value : String) (safe : Bool)
  | icon (arguments : List String) (attributes : List (String × String))
  | inclusion (name : String) (bindings : List (String × String))
  | ifOpen (test : Test)
  | elifOpen (condition : String)
  | elseMark
  | endIf
  | forValues (value collection : String)
  | forEntries (key value collection : String)
  | emptyMark
  | endFor
  | withOpen (name collection key : String)
  | endWith
  /-- The markers of a block that is kept. -/
  | keptOpen (helper : String)
  | keptElse
  | keptClose (helper : String)
deriving Repr, DecidableEq

/-- A stretch of output that was written at once. -/
abbrev Fragment := List Piece

def blockTag (inner : String) : String :=
  "\x7b% " ++ inner ++ " %\x7d"

def concat : List String → String
  | [] => ""
  | s :: rest => s ++ concat rest

namespace Piece

/-- A named value such as `label=title`. -/
def binding : String × String → String
  | (key, value) => key ++ "=" ++ value

def render : Piece → String
  | text content => content
  | comment content => "\x7b#" ++ content ++ "#\x7d"
  | output value safe => "\x7b\x7b " ++ value ++ (if safe then "|safe" else "") ++ " \x7d\x7d"
  | icon arguments attributes =>
    blockTag ("carbon_icon" ++ concat (arguments.map (" " ++ ·)) ++
      concat (attributes.map fun (key, value) => " " ++ key ++ "=\"" ++ value ++ "\""))
  | inclusion name bindings =>
    blockTag ("include " ++ name ++
      if bindings.isEmpty then "" else " with " ++ " ".intercalate (bindings.map binding))
  | ifOpen test => blockTag ("if " ++ test.render)
  | elifOpen condition => blockTag ("elif " ++ condition)
  | elseMark => blockTag "else"
  | endIf => blockTag "endif"
  | forValues value collection => blockTag ("for " ++ value ++ " in " ++ collection)
  | forEntries key value collection =>
    blockTag ("for " ++ key ++ ", " ++ value ++ " in " ++ collection ++ ".items")
  | emptyMark => blockTag "empty"
  | endFor => blockTag "endfor"
  | withOpen name collection key =>
    blockTag ("with " ++ name ++ "=" ++ collection ++ "|lookup:" ++ key)
  | endWith => blockTag "endwith"
  | keptOpen helper => "\x7b\x7b# " ++ helper ++ " \x7d\x7d"
  | keptElse => "\x7b\x7belse\x7d\x7d"
  | keptClose helper => "\x7b\x7b/" ++ helper ++ "\x7d\x7d"

end Piece

namespace Fragment

def render (f : Fragment) : String :=
  concat (f.map Piece.render)

end Fragment
end Stencil.Django
