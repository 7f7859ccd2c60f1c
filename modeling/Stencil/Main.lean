import Stencil.CommandLine.Run

/-!
# The program

The part of the disk that a request speaks of is read into a tree, the request
is run on the tree, and what has changed in it is written back.
-/

namespace Stencil.CommandLine

open Disk (Tree Node Location Pathname)

/-- A location as the text of an absolute path. -/
def absolute (location : Location) : String :=
  String.ofList ('/' :: Pathname.join location)

/-- The location of a path, with dots resolved by their spelling. -/
def lexical (t : Tree) (p : Pathname) : Location :=
  let (location, segments) := t.start p
  segments.foldl (fun location segment =>
    if Pathname.isSkipped segment then location
    else if segment = ['.', '.'] then location.dropLast
    else location ++ [segment]) location

def mentioned : Request → List Pathname
  | .convert c =>
    let paths := c.paths.map String.toList
    let targets := paths.filterMap fun p => Disk.target? c.options p (Pathname.parent? p)
    paths ++ targets ++ (c.outDir.map String.toList).toList
  | .ast file => [file.toList]
  | _ => []

/-- Adds what the disk holds at a location and below it. -/
partial def load (t : Tree) (location : Location) : IO Tree := do
  let path := (← IO.currentDir) / absolute location
  let add (node : Node) : Tree := t.set location node
  if ← path.isDir then
    let mut t := add .directory
    for entry in ← path.readDir do
      t ← load t (location ++ [entry.fileName.toList])
    return t
  else if ← path.pathExists then return add (.file (← IO.FS.readBinFile path))
  else return t

/-- Adds a location with the directories above it. -/
def loadWithin (t : Tree) (location : Location) : IO Tree := do
  let mut t := t
  for n in List.range location.length do
    let above := location.take n
    if above ≠ [] && (← ((← IO.currentDir) / absolute above).isDir) then
      t := t.set above .directory
  load t location

/-- Writes to the disk what differs between two trees. -/
def store (before after : Tree) : IO Unit := do
  for ((_, location), node) in after.nodes.entries do
    unless (before.node? location).any node.same do
      match node with
      | .directory => IO.FS.createDirAll (absolute location)
      | .file content => IO.FS.writeBinFile (absolute location) content

end Stencil.CommandLine

open Stencil.CommandLine in
def main (arguments : List String) : IO UInt32 := do
  let request := Request.ofArguments arguments
  let here := (Stencil.Text.fields '/' (← IO.currentDir).toString.toList).filter (· ≠ [])
  let mut tree := Stencil.Disk.Tree.emptyAt here
  for p in mentioned request do
    tree ← loadWithin tree (lexical tree p)
  let outcome := run tree request
  store tree outcome.tree
  IO.print outcome.stdout
  match outcome.report with
  | some text => IO.eprint text
  | none => pure ()
  return outcome.exit.toUInt32
