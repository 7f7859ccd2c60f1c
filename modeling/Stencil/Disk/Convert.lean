import Stencil.Document
import Stencil.Disk.Target
import Stencil.Disk.Tree

/-!
# Converting files

A template file is read, converted and written to its target; a directory
stands for all templates below it. Files are treated one after the other, and
the first failure ends the conversion with everything written so far in place.
There are no links in a tree, so nothing is met twice on a walk, and a write
changes the file at its own place only.
-/

namespace Stencil.Disk

inductive Failure
  /-- A walk from a root that ends at some path. -/
  | walk (root path : Pathname) (error : TreeError)
  | read (path : Pathname) (error : ReadError)
  | convert (path : Pathname) (error : Document.Error)
  /-- The target extension contains a slash. -/
  | extension
  | create (path : Pathname) (error : TreeError)
  | write (path : Pathname) (error : TreeError)

/-- An error message with the chain of its causes. -/
structure Report where
  message : String
  causes : List String
deriving Repr, DecidableEq

/-- An error in a document, which for a template that cannot be read has the syntax error as
its cause. -/
def documentReport (e : Document.Error) : Report where
  message := e.message
  causes := match e with
    | .unreadable e => [e.message]
    | .refused _ => []

namespace Failure

private def failedTo (verb : String) (p : Pathname) : String :=
  "Failed to " ++ verb ++ " " ++ String.ofList p

def report : Failure → Report
  | walk root p e =>
    ⟨failedTo "walk" root,
      ["IO error for operation on " ++ String.ofList p ++ ": " ++ e.message, e.message]⟩
  | read p e => ⟨failedTo "read" p, [e.message]⟩
  | convert p e =>
    ⟨failedTo "transpile" p, (documentReport e).message :: (documentReport e).causes⟩
  | extension => ⟨"extension cannot contain path separators", []⟩
  | create p e => ⟨failedTo "create" p, [e.message]⟩
  | write p e => ⟨failedTo "write" p, [e.message]⟩

end Failure

/-- A template that has been written. -/
structure Converted where
  source : Pathname
  target : Pathname
  diagnostics : List Diagnostic
deriving Repr, DecidableEq

def isTemplate (o : Options) (p : Pathname) : Bool :=
  Pathname.extension? p = some o.sourceExtension.toList

def pathBelow (directory : Pathname) (location : Location) : Pathname :=
  location.foldl Pathname.under directory

/-- Why a walk cannot go on at a path: a directory has to be opened under its path, while a file
is only listed. -/
def blocked? (p : Pathname) (node : Node) : Option TreeError :=
  if node.isFile then none else refusal? p

/-- The templates that a walk from a root lists. A file whose path cannot be looked up is passed
over. -/
def listTemplates (o : Options) (root : Pathname) :
    List (Pathname × Node) → Except Failure (List Pathname)
  | [] => .ok []
  | (p, node) :: rest =>
    match blocked? p node with
    | some e => .error (.walk root p e)
    | none =>
      if node.isFile && isTemplate o p && (refusal? p).isNone then
        (listTemplates o root rest).map (p :: ·)
      else listTemplates o root rest

/-- The path itself, if it is a file, or all templates below it. -/
def templateFiles (t : Tree) (o : Options) (p : Pathname) : Except Failure (List Pathname) :=
  if t.isFile p then .ok [p]
  else
    match t.locate p with
    | .error e => .error (.walk p p e)
    | .ok location =>
      listTemplates o p ((t.nodesBelow location).map fun (below, node) => (pathBelow p below, node))

/-- The document of a template file with the text that is handed out for it. -/
def document (t : Tree) (o : Options) (p : Pathname) : Except Failure (String × Document) :=
  match t.read p with
  | .error e => .error (.read p e)
  | .ok source =>
    match Document.ofSource o source with
    | .error e => .error (.convert p e)
    | .ok d => .ok (d.text o source, d)

/-- Makes the directories around a target. -/
def prepare (t : Tree) (target : Pathname) : Except Failure Unit × Tree :=
  match Pathname.parent? target with
  | none => (.ok (), t)
  | some parent =>
    match t.makeDirectories parent with
    | (.error e, t) => (.error (.create parent e), t)
    | (.ok _, t) => (.ok (), t)

/-- Writes a text to a target, making the directories it needs. -/
def deliver (t : Tree) (target : Pathname) (text : String) : Except Failure Unit × Tree :=
  match prepare t target with
  | (.error e, t) => (.error e, t)
  | (.ok _, t) =>
    match t.write target text.toUTF8 with
    | .error e => (.error (.write target e), t)
    | .ok t => (.ok (), t)

def convertFile (t : Tree) (o : Options) (root : Option Pathname) (p : Pathname) :
    Except Failure Converted × Tree :=
  match document t o p with
  | .error e => (.error e, t)
  | .ok (text, d) =>
    match target? o p root with
    | none => (.error .extension, t)
    | some target =>
      match deliver t target text with
      | (.error e, t) => (.error e, t)
      | (.ok _, t) => (.ok { source := p, target, diagnostics := d.diagnostics }, t)

def convertFiles (t : Tree) (o : Options) (root : Option Pathname) :
    List Pathname → Except Failure (List Converted) × Tree
  | [] => (.ok [], t)
  | p :: rest =>
    match convertFile t o root p with
    | (.error e, t) => (.error e, t)
    | (.ok c, t) =>
      match convertFiles t o root rest with
      | (.error e, t) => (.error e, t)
      | (.ok converted, t) => (.ok (c :: converted), t)

/-- Converts a template, or all templates below a directory. -/
def convertPath (t : Tree) (o : Options) (p : Pathname) :
    Except Failure (List Converted) × Tree :=
  if t.isFile p then convertFiles t o (Pathname.parent? p) [p]
  else
    match templateFiles t o p with
    | .error e => (.error e, t)
    | .ok files => convertFiles t o (some p) files

end Stencil.Disk
