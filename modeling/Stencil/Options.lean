/-!
# Settings

What a conversion can be told. Extensions are kept without leading dots.
-/

namespace Stencil

structure Options where
  /-- The helper that is written as an icon tag. -/
  iconHelper : String := "carbon-icon"
  /-- What stands before class names that are put together. -/
  iconClassPrefix : String := "bx"
  sourceExtension : String := "hbs"
  targetExtension : String := "html"
  /-- Whether handing a whole context to a partial is an error. -/
  strictPartials : Bool := true
  /-- Whether the source is appended as a comment. -/
  sourceComment : Bool := true
  /-- Where targets are written, if not next to their sources. -/
  outDir : Option String := none
deriving Repr, DecidableEq, Inhabited

namespace Options

/-- An extension without the dots before it. -/
def bareExtension (extension : String) : String :=
  String.ofList (extension.toList.dropWhile (· = '.'))

def withSourceExtension (o : Options) (extension : String) : Options :=
  { o with sourceExtension := bareExtension extension }

def withTargetExtension (o : Options) (extension : String) : Options :=
  { o with targetExtension := bareExtension extension }

end Options
end Stencil
