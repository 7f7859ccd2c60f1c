import Stencil.Options
import Stencil.Conversion.Reference

/-!
# Blocks

The shapes of block that have a Django counterpart, and the markers around
those that have none. A block is given its programs as branches, which can be
converted in any scopes. The header of a loop is written when its body is
known, because the body may ask for keys.
-/

namespace Stencil.Conversion

open Handlebars (Path Expr Arguments)
open Django (Piece)

/-- A program that is yet to be converted. -/
structure Branch where
  /-- Whether the program is a single `if`. -/
  loneIf : Bool
  /-- Converts the program in some scopes; the flag says that its `if` continues a chain. -/
  convert : List Scope → Bool → Step Unit

/-- A block with its programs as branches. -/
structure Block where
  helper : Path
  args : Arguments
  blockParams : List String
  main : Branch
  inverse : Option Branch

/-- Writes the inverse behind a mark. -/
def alternative (scopes : List Scope) (mark : Piece) : Option Branch → Step Unit
  | none => pure ()
  | some inverse => do
    let body ← (inverse.convert scopes false).gather
    .emit mark
    .write body

/-- Writes the inverse of an `if`; a lone `if` continues the chain without a mark. -/
def chainedAlternative (scopes : List Scope) : Option Branch → Step Unit
  | none => pure ()
  | some inverse => do
    let body ← (inverse.convert scopes inverse.loneIf).gather
    if inverse.loneIf then .write body
    else do
      .emit .elseMark
      .write body

/-- Writes an `if`, or an `elif` that leaves the closing tag to the chain's first `if`. -/
def ifBlock (scopes : List Scope) (chained : Bool) (b : Block) : Step Unit := do
  let test ← condition scopes b.args.params[0]?
  .count
  .emit (if chained then .elifOpen test else .ifOpen (.holds test))
  let body ← (b.main.convert scopes false).gather
  .write body
  chainedAlternative scopes b.inverse
  if chained then pure () else .emit .endIf

/-- Writes the two branches of a conditional that cannot continue a chain. -/
def conditionalBranches (scopes : List Scope) (b : Block) : Step Unit := do
  let body ← (b.main.convert scopes false).gather
  .write body
  alternative scopes .elseMark b.inverse
  .emit .endIf

def unlessBlock (scopes : List Scope) (b : Block) : Step Unit := do
  let test ← condition scopes b.args.params[0]?
  .count
  .emit (.ifOpen (.fails test))
  conditionalBranches scopes b

def equalBlock (scopes : List Scope) (b : Block) : Step Unit := do
  let left ← argument? scopes b.args.params[0]?
  .count
  .emit (.ifOpen (.equal left ((b.args.params[1]?.map Expr.asWritten).getD unresolved)))
  conditionalBranches scopes b

/-- Keeps a block, with its programs converted. -/
def keptBlock (scopes : List Scope) (b : Block) : Step Unit := do
  .emit (.keptOpen b.helper.spelling)
  let body ← (b.main.convert scopes false).gather
  .write body
  alternative scopes .keptElse b.inverse
  .emit (.keptClose b.helper.spelling)

/-- The collection, the key and the name of a `with` that looks an entry up. -/
def lookup? (args : Arguments) (blockParams : List String) : Option (Expr × Expr × String) :=
  match args.params, blockParams with
  | [.call helper [collection, key] _], [name] =>
    if helper.spelling = "lookup" then some (collection, key, name) else none
  | _, _ => none

/-- Writes a `with` that looks an entry up; its inverse has no counterpart. -/
def lookupBlock (scopes : List Scope) (b : Block) (collection key : Expr) (name : String) :
    Step Unit := do
  let collection ← argument scopes collection
  let key ← argument scopes key
  .emit (.withOpen name collection key)
  let (body, _) ← (b.main.convert ({ names := [name] } :: scopes) false).gatherWithin scopes.length
  .write body
  if b.inverse.isSome then .report (.droppedWithElse name) else pure ()
  .emit .endWith

def withBlock (scopes : List Scope) (b : Block) : Step Unit :=
  match lookup? b.args b.blockParams with
  | some (collection, key, name) => lookupBlock scopes b collection key name
  | none => do
    .report .otherWith
    keptBlock scopes b

def collection (scopes : List Scope) : Option Expr → Step String
  | some (.path path) => reference scopes path
  | e => do
    .report (.eachOver (written? e))
    pure unresolved

def lastName (dotted : String) : String :=
  String.ofList (((Text.fields '.' dotted.toList).getLast?).getD [])

/-- The names a loop introduces; without names of its own it makes one up. -/
def loopNames (blockParams : List String) (collection : String) : List String :=
  if blockParams.isEmpty then [lastName collection ++ "_i"] else blockParams

def loopHeader (names : List String) (collection : String) (entries : Bool) : Piece :=
  if entries then
    .forEntries (names[1]?.getD "key") (names[0]?.getD "value") collection
  else .forValues (names[0]?.getD "value") collection

/-- Writes a loop, over entries if it has two names or its body asks for keys. -/
def eachBlock (scopes : List Scope) (b : Block) : Step Unit := do
  let items ← collection scopes b.args.params[0]?
  let names := loopNames b.blockParams items
  let (body, keyed) ← (b.main.convert ({ names } :: scopes) false).gatherWithin scopes.length
  .emit (loopHeader names items (b.blockParams.length = 2 || keyed))
  .write body
  alternative scopes .emptyMark b.inverse
  .emit .endFor

def block (scopes : List Scope) (chained : Bool) (b : Block) : Step Unit :=
  if b.helper.spelling = "if" then ifBlock scopes chained b
  else if b.helper.spelling = "unless" then unlessBlock scopes b
  else if b.helper.spelling = "eq" || b.helper.spelling = "is" then equalBlock scopes b
  else if b.helper.spelling = "with" then withBlock scopes b
  else if b.helper.spelling = "each" then eachBlock scopes b
  else do
    .report (.unknownBlock b.helper.spelling)
    keptBlock scopes b

end Stencil.Conversion
