import Stencil.Dictionary
import Stencil.Disk.Pathname

/-!
# Trees of files

A tree is known by the files and directories in it, each under the names that
lead to it from the root, together with a working directory. It holds regular
files and directories only, and a file has one place: symbolic links, which walks
and writes would follow, and hard links are left out. Path texts are looked up
segment by segment. Whatever is not found, is no directory where one is needed,
or stands in the way, is an error, and so are texts that are no paths: those with
a NUL character and those that are too long.
-/

namespace Stencil.Disk

inductive TreeError
  | notFound
  | occupied
  | notDirectory
  | isDirectory
  | tooLong
  | nulCharacter
deriving Repr, DecidableEq

namespace TreeError

def message : TreeError → String
  | notFound => "No such file or directory (os error 2)"
  | occupied => "File exists (os error 17)"
  | notDirectory => "Not a directory (os error 20)"
  | isDirectory => "Is a directory (os error 21)"
  | tooLong => "File name too long (os error 36)"
  | nulCharacter => "file name contained an unexpected NUL byte"

end TreeError

inductive ReadError
  | tree (error : TreeError)
  /-- The bytes are not UTF-8. -/
  | notText
deriving Repr, DecidableEq

namespace ReadError

def message : ReadError → String
  | tree e => e.message
  | notText => "stream did not contain valid UTF-8"

end ReadError

def byteLength : List Char → Nat
  | [] => 0
  | c :: s => c.utf8Size + byteLength s

def maxNameLength : Nat := 255

def maxPathLength : Nat := 4095

/-- Why a text cannot be looked up in any tree. -/
def refusal? (p : Pathname) : Option TreeError :=
  if '\x00' ∈ p then some .nulCharacter
  else if p = [] then some .notFound
  else if maxPathLength < byteLength p then some .tooLong
  else none

inductive Node
  | file (content : ByteArray)
  | directory

namespace Node

def isFile : Node → Bool
  | file _ => true
  | directory => false

/-- Whether two nodes are both directories or files with the same bytes. -/
def same : Node → Node → Bool
  | file a, file b => a.data.toList = b.data.toList
  | directory, directory => true
  | _, _ => false

end Node

/-- The names that lead from the root to a node. -/
abbrev Location := List (List Char)

/-- What a node is kept under. The number of names comes first, because it tells most locations
apart at once. -/
abbrev Key := Nat × Location

def Location.key (location : Location) : Key :=
  (location.length, location)

structure Tree where
  nodes : Dictionary Key Node := {}
  /-- The working directory. -/
  here : Location := []

namespace Tree

/-- The node at a location; the root is always there. -/
def node? (t : Tree) (location : Location) : Option Node :=
  if location = [] then some .directory else t.nodes.get? (Location.key location)

def set (t : Tree) (location : Location) (node : Node) : Tree :=
  { t with nodes := t.nodes.put (Location.key location) node }

def erase (t : Tree) (location : Location) : Tree :=
  { t with nodes := t.nodes.erase (Location.key location) }

theorem key_inj {l m : Location} : Location.key l = Location.key m ↔ l = m := by
  constructor
  · intro h
    exact (Prod.mk.inj h).2
  · intro h
    rw [h]

theorem node?_set {t : Tree} {l m : Location} {node : Node} (h : m ≠ []) :
    (t.set l node).node? m = if l = m then some node else t.node? m := by
  simp only [node?, set, h, if_false, Dictionary.get?_put, key_inj]

theorem node?_erase {t : Tree} {l m : Location} (h : m ≠ []) :
    (t.erase l).node? m = if l = m then none else t.node? m := by
  simp only [node?, erase, h, if_false, Dictionary.get?_erase, key_inj]

/-- The first directories on the way to a working directory. -/
def directoriesTo (here : Location) (count : Nat) : Tree :=
  (List.range count).foldl (fun t n => t.set (here.take (n + 1)) .directory) { here }

/-- An empty working directory with the directories above it. -/
def emptyAt (here : Location) : Tree :=
  directoriesTo here here.length

theorem directoriesTo_succ (here : Location) (count : Nat) :
    directoriesTo here (count + 1) =
      (directoriesTo here count).set (here.take (count + 1)) .directory := by
  rw [directoriesTo, List.range_succ, List.foldl_append]
  rfl

@[simp] theorem here_directoriesTo (here : Location) (count : Nat) :
    (directoriesTo here count).here = here := by
  induction count with
  | zero => rfl
  | succ count ih =>
    rw [directoriesTo_succ]
    exact ih

def isDirectoryAt (t : Tree) (location : Location) : Bool :=
  match t.node? location with
  | some .directory => true
  | _ => false

def follow (t : Tree) : Location → List (List Char) → Except TreeError Location
  | location, [] => .ok location
  | location, segment :: segments =>
    if t.isDirectoryAt location then
      if Pathname.isSkipped segment then t.follow location segments
      else if segment = ['.', '.'] then t.follow location.dropLast segments
      else
        match t.node? (location ++ [segment]) with
        | none => .error (if maxNameLength < byteLength segment then .tooLong else .notFound)
        | some _ => t.follow (location ++ [segment]) segments
    else .error .notDirectory

/-- Where a path starts, and its segments. -/
def start (t : Tree) : Pathname → Location × List (List Char)
  | '/' :: s => ([], Text.fields '/' s)
  | s => (t.here, Text.fields '/' s)

def locate (t : Tree) (p : Pathname) : Except TreeError Location :=
  match refusal? p with
  | some e => .error e
  | none =>
    let (location, segments) := t.start p
    t.follow location segments

def stat (t : Tree) (p : Pathname) : Except TreeError Node := do
  let location ← t.locate p
  match t.node? location with
  | some node => .ok node
  | none => .error .notFound

def isFile (t : Tree) (p : Pathname) : Bool :=
  match t.stat p with
  | .ok (.file _) => true
  | _ => false

def isDirectory (t : Tree) (p : Pathname) : Bool :=
  match t.stat p with
  | .ok .directory => true
  | _ => false

def read (t : Tree) (p : Pathname) : Except ReadError String :=
  match t.stat p with
  | .error e => .error (.tree e)
  | .ok .directory => .error (.tree .isDirectory)
  | .ok (.file content) =>
    match String.fromUTF8? content with
    | some text => .ok text
    | none => .error .notText

/-- A place for a node: a name in a directory, which a path may have marked as a directory's
by a slash at the end. Dots and the root have no name. -/
structure Place where
  directory : Location
  name : Option (List Char)
  slash : Bool

/-- The place a path names, whether or not there is a node. -/
def place (t : Tree) (p : Pathname) : Except TreeError Place :=
  match refusal? p with
  | some e => .error e
  | none =>
    let (location, segments) := t.start p
    match segments.reverse.dropWhile (· = []) with
    | [] => .ok ⟨location, none, true⟩
    | last :: before => do
      let directory ← t.follow location before.reverse
      if t.isDirectoryAt directory then
        if last = ['.'] || last = ['.', '.'] then .ok ⟨directory, none, true⟩
        else .ok ⟨directory, some last, segments.getLast? = some []⟩
      else .error .notDirectory

/-- Puts a node under a name in a directory, unless the name is too long. -/
def putAt (t : Tree) (directory : Location) (name : List Char) (node : Node) :
    Except TreeError Tree :=
  if maxNameLength < byteLength name then .error .tooLong
  else .ok (t.set (directory ++ [name]) node)

def makeDirectory (t : Tree) (p : Pathname) : Except TreeError Tree := do
  let place ← t.place p
  match place.name with
  | none => .error .occupied
  | some name =>
    match t.node? (place.directory ++ [name]) with
    | some _ => .error .occupied
    | none => t.putAt place.directory name .directory

/-- Makes the first of the paths, each of which lies in the next one, and what it needs of the
others. -/
def makeChain (t : Tree) : List Pathname → Except TreeError Unit × Tree
  | [] => (.ok (), t)
  | p :: outer =>
    match t.makeDirectory p with
    | .ok t => (.ok (), t)
    | .error .notFound =>
      match t.makeChain outer with
      | (.error e, t) => (.error e, t)
      | (.ok _, t) =>
        match t.makeDirectory p with
        | .ok t => (.ok (), t)
        | .error e => if t.isDirectory p then (.ok (), t) else (.error e, t)
    | .error e => if t.isDirectory p then (.ok (), t) else (.error e, t)

/-- A path and the paths of the directories around it; the working directory is left out. -/
def chain : Nat → Pathname → List Pathname
  | 0, _ => []
  | fuel + 1, p =>
    if p = [] then []
    else
      match Pathname.parent? p with
      | none => [p]
      | some outer => p :: chain fuel outer

/-- Makes a directory together with the directories it lies in. The tree is given back also
when this fails half way. -/
def makeDirectories (t : Tree) (p : Pathname) : Except TreeError Unit × Tree :=
  t.makeChain (chain (p.length + 1) p)

/-- Writes a file, new or in place of the old one. -/
def write (t : Tree) (p : Pathname) (content : ByteArray) : Except TreeError Tree := do
  let place ← t.place p
  match place.name with
  | none => .error .isDirectory
  | some name =>
    if place.slash || t.isDirectoryAt (place.directory ++ [name]) then .error .isDirectory
    else t.putAt place.directory name (.file content)

def remove (t : Tree) (p : Pathname) : Except TreeError Tree := do
  let location ← t.locate p
  if t.isDirectoryAt location then .error .isDirectory
  else .ok (t.erase location)

/-- The names that lead to `location` from `directory`, if it lies below. -/
def relative? (directory location : Location) : Option Location :=
  match Text.behind? directory location with
  | some [] => none
  | found => found

/-- What lies below a directory with the names that lead there, in the order of its entries. -/
def entriesBelow (t : Tree) (directory : Location) : List (Location × Node) :=
  t.nodes.entries.filterMap fun
    | ((_, location), node) => (relative? directory location).map (·, node)

/-- What lies below a directory in the order in which a walk meets it: entries by name, and behind
a directory what lies in it. -/
def nodesBelow (t : Tree) (directory : Location) : List (Location × Node) :=
  (t.entriesBelow directory).mergeSort fun a b => !(decide (b.1 < a.1))

def filesBelow (t : Tree) (directory : Location) : List (Location × ByteArray) :=
  (t.nodesBelow directory).filterMap fun
    | (location, .file content) => some (location, content)
    | (_, .directory) => none

end Tree
end Stencil.Disk
