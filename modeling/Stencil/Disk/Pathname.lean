import Stencil.Text.Split

/-!
# Path texts

A path is a text whose slashes separate segments. Empty segments and single
dots count for nothing, except for a dot at the very start, which is a
component like the names and the double dots. Operations work on the text and
keep the spelling of everything they do not touch.
-/

namespace Stencil.Disk

abbrev Pathname := List Char

inductive Component
  | root
  | here
  | up
  | name (name : List Char)
deriving Repr, DecidableEq

/-- How a path begins: at the root, with a dot, or with its first segment. -/
inductive Lead
  | root
  | here
  | plain
deriving Repr, DecidableEq

namespace Lead

def text : Lead → List Char
  | root => ['/']
  | here => ['.']
  | plain => []

def components : Lead → List Component
  | root => [.root]
  | here => [.here]
  | plain => []

end Lead

namespace Pathname

/-- Segments with slashes between them. -/
def join : List (List Char) → List Char
  | [] => []
  | [segment] => segment
  | segment :: rest => segment ++ '/' :: join rest

theorem join_fields (s : List Char) : join (Text.fields '/' s) = s := by
  induction s with
  | nil => rfl
  | cons c s ih =>
    rw [Text.fields]
    cases hf : Text.fields '/' s with
    | nil => exact absurd hf (Text.fields_ne_nil '/' s)
    | cons field more =>
      rw [hf] at ih
      by_cases hc : c = '/'
      · simp [hc, join, ih]
      · rw [← ih]
        cases more <;> simp [hc, join]

/-- The beginning of a path and the segments behind it. -/
def split : Pathname → Lead × List (List Char)
  | '/' :: s => (.root, Text.fields '/' s)
  | ['.'] => (.here, Text.fields '/' [])
  | '.' :: '/' :: s => (.here, Text.fields '/' ('/' :: s))
  | s => (.plain, Text.fields '/' s)

/-- Splitting loses nothing. -/
theorem append_split (p : Pathname) : (split p).1.text ++ join (split p).2 = p := by
  unfold split
  split <;> simp [Lead.text, join_fields]

def isSkipped (segment : List Char) : Bool :=
  segment = [] || segment = ['.']

def component? (segment : List Char) : Option Component :=
  if isSkipped segment then none
  else if segment = ['.', '.'] then some .up
  else some (.name segment)

def components (p : Pathname) : List Component :=
  (split p).1.components ++ (split p).2.filterMap component?

/-- Segments without the skipped ones at the end. -/
def trimBack (segments : List (List Char)) : List (List Char) :=
  (segments.reverse.dropWhile isSkipped).reverse

/-- Segments without the skipped ones at either end. -/
def trimBoth (segments : List (List Char)) : List (List Char) :=
  trimBack (segments.dropWhile isSkipped)

/-- The last segment that counts, and those before it from back to front. -/
def last? (segments : List (List Char)) : Option (List Char × List (List Char)) :=
  match segments.reverse.dropWhile isSkipped with
  | [] => none
  | segment :: before => some (segment, before)

/-- The last component, if it is a name. -/
def fileName? (p : Pathname) : Option (List Char) :=
  match last? (split p).2 with
  | none => none
  | some (segment, _) => if segment = ['.', '.'] then none else some segment

def parent? (p : Pathname) : Option Pathname :=
  match last? (split p).2 with
  | some (_, before) => some ((split p).1.text ++ join (trimBack before.reverse))
  | none => if (split p).1 = .here then some [] else none

/-- A name up to its last dot, and what follows the dot. A dot at the very start divides
nothing. -/
def splitName (name : List Char) : List Char × Option (List Char) :=
  match Text.cut ['.'] name.reverse with
  | none => (name, none)
  | some (_, []) => (name, none)
  | some (extension, stem) => (stem.reverse, some extension.reverse)

/-- What follows the last dot of the file name. -/
def extension? (p : Pathname) : Option (List Char) :=
  (fileName? p).bind fun name => (splitName name).2

/-- Puts an extension in place of all that follows the stem of the file name. -/
def setExtension (extension : List Char) (p : Pathname) : Pathname :=
  match last? (split p).2 with
  | none => p
  | some (segment, before) =>
    if segment = ['.', '.'] then p
    else
      let stem := (splitName segment).1
      let name := if extension.isEmpty then stem else stem ++ '.' :: extension
      (split p).1.text ++ join (before.reverse ++ [name])

/-- Cuts the extension off a path that ends with its file name; the dot stays. -/
def cutExtension (p : Pathname) : Pathname :=
  if (split p).2.getLast? = fileName? p then
    match extension? p with
    | some extension => p.take (p.length - extension.length)
    | none => p
  else p

/-- The path with another extension. The old one is cut off first, and where that leaves a
double dot there is no file name to put the new one on. -/
def withExtension (extension : List Char) (p : Pathname) : Pathname :=
  setExtension extension (cutExtension p)

/-- Segments without the leading ones that stand for given components. -/
def stripSegments : List Component → List (List Char) → Option (List (List Char))
  | [], segments => some segments
  | _ :: _, [] => none
  | c :: components, segment :: segments =>
    match component? segment with
    | none => stripSegments (c :: components) segments
    | some d => if c = d then stripSegments components segments else none

/-- The part of a path below a root, compared component by component. -/
def strip? (root p : Pathname) : Option Pathname :=
  let (lead, segments) := split p
  match components root with
  | [] => some (lead.text ++ join (trimBack segments))
  | .root :: rest =>
    if lead = .root then (stripSegments rest segments).map (join ∘ trimBoth) else none
  | .here :: rest =>
    if lead = .here then (stripSegments rest segments).map (join ∘ trimBoth) else none
  | rest => if lead = .plain then (stripSegments rest segments).map (join ∘ trimBoth) else none

def under (directory p : Pathname) : Pathname :=
  if p.head? = some '/' then p
  else if directory = [] || directory.getLast? = some '/' then directory ++ p
  else directory ++ '/' :: p

end Pathname
end Stencil.Disk
