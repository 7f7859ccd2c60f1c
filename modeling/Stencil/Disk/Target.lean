import Stencil.Options
import Stencil.Disk.Pathname

/-!
# Where a converted template goes

Next to its source with another extension, or below the output directory at
the place the source has below its root. A source outside the root keeps only
its file name.
-/

namespace Stencil.Disk

open Pathname

/-- A path moved below the output directory. -/
def relocate (outDir : Pathname) (root : Option Pathname) (p : Pathname) : Pathname :=
  match root.bind (strip? · p) with
  | some relative => under outDir relative
  | none => under outDir ((fileName? p).getD [])

/-- The path a template is written to. An extension cannot contain a slash. -/
def target? (o : Options) (p : Pathname) (root : Option Pathname) : Option Pathname :=
  let extension := o.targetExtension.toList
  if '/' ∈ extension then none
  else
    let renamed := withExtension extension p
    match o.outDir with
    | some outDir => some (relocate outDir.toList root renamed)
    | none => some renamed

end Stencil.Disk
