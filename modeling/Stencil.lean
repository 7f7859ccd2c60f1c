import Stencil.Text.Blank
import Stencil.Text.Split
import Stencil.Text.Position
import Stencil.Text.Digest
import Stencil.Handlebars.Path
import Stencil.Handlebars.Expr
import Stencil.Handlebars.Program
import Stencil.Handlebars.Fault
import Stencil.Handlebars.Token
import Stencil.Handlebars.Call
import Stencil.Handlebars.Tag
import Stencil.Handlebars.Segment
import Stencil.Handlebars.Directive
import Stencil.Handlebars.Nesting
import Stencil.Handlebars.Parse
import Stencil.Json
import Stencil.Handlebars.Json
import Stencil.Dictionary
import Stencil.Options
import Stencil.Diagnostic
import Stencil.Scope
import Stencil.Django.Piece
import Stencil.Conversion.Log
import Stencil.Conversion.Reference
import Stencil.Conversion.Icon
import Stencil.Conversion.Inclusion
import Stencil.Conversion.Block
import Stencil.Conversion.Program
import Stencil.Document
import Stencil.Cache
import Stencil.Conversion.Session
import Stencil.Scope.Pool
import Stencil.Disk.Pathname
import Stencil.Disk.Target
import Stencil.Disk.Tree
import Stencil.Disk.Convert
import Stencil.CommandLine.Request
import Stencil.CommandLine.Run
import Stencil.Main
import Stencil.Proofs.Handlebars.Print
import Stencil.Proofs.Handlebars.ReadCall
import Stencil.Proofs.Handlebars.ReadTag
import Stencil.Proofs.Handlebars.RoundTrip
import Stencil.Proofs.Conversion.Reading
import Stencil.Proofs.Conversion.Sites
import Stencil.Proofs.Django.Tree
import Stencil.Proofs.Conversion.Mirror
import Stencil.Proofs.Conversion.Binding
import Stencil.Proofs.Conversion.Refusals
import Stencil.Proofs.Django.Token
import Stencil.Proofs.Conversion.Tokens
import Stencil.Proofs.Django.Rendering
import Stencil.Proofs.Conversion.Branches
import Stencil.Proofs.Handlebars.Seam
import Stencil.Proofs.Conversion.Concatenation
import Stencil.Proofs.Cache
import Stencil.Proofs.Disk.Pathname
import Stencil.Proofs.Conversion.Inclusions
import Stencil.Proofs.Conversion.Sessions
import Stencil.Proofs.Handlebars.Provenance
import Stencil.Proofs.Django.Arguments
import Stencil.Proofs.Django.Pieces
import Stencil.Proofs.Conversion.Spacing
import Stencil.Proofs.Conversion.Conditionals
import Stencil.Proofs.Conversion.Degradation
import Stencil.Proofs.Scope.Sharing
import Stencil.Proofs.Scope.History
import Stencil.Proofs.Handlebars.Outline
import Stencil.Proofs.Disk.Tree
import Stencil.Proofs.Disk.Below
import Stencil.Proofs.Disk.Walk
import Stencil.Proofs.Disk.Convert
import Stencil.Proofs.Disk.Layout
import Stencil.Proofs.CommandLine.Agreement
import Stencil.Proofs.Disk.Changes
import Stencil.Proofs.Disk.Parent
import Stencil.Proofs.Disk.Sources
import Stencil.Proofs.Conversion.Strictness
import Stencil.Proofs.Handlebars.Spelling
import Stencil.Proofs.Conversion.Keys
import Stencil.Proofs.Handlebars.Locality
import Stencil.Proofs.Handlebars.Naming
import Stencil.Proofs.Handlebars.Occurrence
import Stencil.Proofs.Handlebars.Chain
import Stencil.Proofs.Handlebars.Gathering
import Stencil.Proofs.Handlebars.Grammar
import Stencil.Proofs.Handlebars.Strings
import Stencil.Proofs.Handlebars.Trimming
import Stencil.Proofs.Handlebars.Escape
import Stencil.Proofs.Scope.Hops
import Stencil.Proofs.Handlebars.Legibility
import Stencil.Proofs.Handlebars.Written
import Stencil.Proofs.Handlebars.Faults
import Stencil.Proofs.Conversion.Lines
import Stencil.Proofs.Conversion.Quotation
import Stencil.Handlebars.Scanner
import Stencil.Proofs.Bytes
import Stencil.Proofs.Handlebars.TagAt
import Stencil.Proofs.Handlebars.Stacks
import Stencil.Proofs.Handlebars.Pending
import Stencil.Proofs.Handlebars.Turn
import Stencil.Proofs.Handlebars.Depth
import Stencil.Proofs.Handlebars.Scanner
import Stencil.Proofs.Position
import Stencil.Proofs.Scope.Merge
import Stencil.Proofs.Scope.Lookup
import Stencil.Proofs.Handlebars.References
