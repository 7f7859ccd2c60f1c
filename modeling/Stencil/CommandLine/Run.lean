import Stencil.CommandLine.Request
import Stencil.Disk.Convert
import Stencil.Handlebars.Json

/-!
# Running a command

A command reads and changes a tree of files, prints, and ends with an exit
code: zero for success, one for a failure, which is reported with its causes,
and two for a misuse.
-/

namespace Stencil.CommandLine

open Disk (Tree Pathname Report Failure)
open Handlebars (Program)

structure Outcome where
  exit : Nat := 0
  stdout : String := ""
  /-- What is reported on standard error, if the command fails. -/
  report : Option String := none
  tree : Tree

/-- A text whose later lines are indented. -/
def indented (indentation : String) (text : String) : String :=
  ("\n" ++ indentation).intercalate ((Text.fields '\n' text.toList).map String.ofList)

def numbered : Nat → List String → String
  | _, [] => ""
  | n, cause :: causes =>
    let number := toString n
    String.ofList (List.replicate (5 - number.length) ' ') ++ number ++ ": " ++
      indented "       " cause ++ "\n" ++ numbered (n + 1) causes

/-- A report as it is printed: a single cause is indented, several are numbered. -/
def renderReport (r : Report) : String :=
  "Error: " ++ r.message ++ "\n" ++
    match r.causes with
    | [] => ""
    | [cause] => "\nCaused by:\n    " ++ indented "    " cause ++ "\n"
    | causes => "\nCaused by:\n" ++ numbered 0 causes

def fail (tree : Tree) (stdout : String) (r : Report) : Outcome :=
  { exit := 1, stdout, report := some (renderReport r), tree }

namespace ConvertCommand

def options (c : ConvertCommand) : Options :=
  { sourceComment := !c.noSourceComment
    strictPartials := !c.lenientPartials
    outDir := c.outDir }

end ConvertCommand

/-- The report on a template that cannot be printed; an error in its document is not wrapped. -/
def printReport : Failure → Report
  | .convert _ e => Disk.documentReport e
  | failure => failure.report

/-- The texts of templates, one after the other, up to the first failure. -/
def printFiles (t : Tree) (o : Options) : List Pathname → String × Option Report
  | [] => ("", none)
  | p :: rest =>
    match Disk.document t o p with
    | .error failure => ("", some (printReport failure))
    | .ok (text, _) =>
      let (more, report) := printFiles t o rest
      (text ++ "\n" ++ more, report)

/-- What is printed for paths, one after the other, up to the first failure. -/
def printPaths (t : Tree) (o : Options) : List Pathname → String × Option Report
  | [] => ("", none)
  | p :: rest =>
    match Disk.templateFiles t o p with
    | .error failure => ("", some failure.report)
    | .ok files =>
      match printFiles t o files with
      | (text, some report) => (text, some report)
      | (text, none) =>
        let (more, report) := printPaths t o rest
        (text ++ more, report)

def convertPaths (t : Tree) (o : Options) : List Pathname → Option Report × Tree
  | [] => (none, t)
  | p :: rest =>
    match Disk.convertPath t o p with
    | (.error failure, t) => (some failure.report, t)
    | (.ok _, t) => convertPaths t o rest

def runConvert (t : Tree) (c : ConvertCommand) : Outcome :=
  let paths := c.paths.map String.toList
  let (stdout, report, t) :=
    if c.stdout then
      let (stdout, report) := printPaths t c.options paths
      (stdout, report, t)
    else ("", convertPaths t c.options paths)
  match report with
  | some r => fail t stdout r
  | none => { stdout, tree := t }

/-- Prints a program as JSON. -/
def runAst (t : Tree) (file : String) : Outcome :=
  match t.read file.toList with
  | .error e => fail t "" (Failure.read file.toList e).report
  | .ok source =>
    match Program.parse source with
    | .error e => fail t "" ⟨"Failed to parse " ++ file, [e.message]⟩
    | .ok p => { stdout := p.toJson.pretty ++ "\n", tree := t }

def versionLine : String := "hbs2django 0.1.0\n"

def run (t : Tree) : Request → Outcome
  | .convert command => runConvert t command
  | .ast file => runAst t file
  | .version => { stdout := versionLine, tree := t }
  | .help => { tree := t }
  | .misuse => { exit := 2, tree := t }

end Stencil.CommandLine
