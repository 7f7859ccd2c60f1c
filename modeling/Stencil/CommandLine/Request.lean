/-!
# What a command line asks for

Arguments are read from left to right. The first one that makes no sense makes
the whole line a misuse; a request for help or for the version takes effect as
soon as it is read. Everything behind a double dash is a path.
-/

namespace Stencil.CommandLine

inductive Subcommand
  | convert
  | ast
deriving Repr, DecidableEq

namespace Subcommand

/-- Whether another path can follow `count` paths: `ast` takes one, `convert` any number. -/
def admitsPath : Subcommand → Nat → Bool
  | convert, _ => true
  | ast, count => count = 0

end Subcommand

structure ConvertCommand where
  paths : List String := []
  outDir : Option String := none
  noSourceComment : Bool := false
  lenientPartials : Bool := false
  stdout : Bool := false
deriving Repr, DecidableEq

inductive Request
  | convert (command : ConvertCommand)
  | ast (file : String)
  | version
  | help
  | misuse
deriving Repr, DecidableEq

/-- An argument by its form. -/
inductive Argument
  | value (text : String)
  | doubleDash
  /-- A name behind two dashes, perhaps with a value behind an equals sign. -/
  | long (name : String) (value : Option String)
  /-- Single letters behind one dash. -/
  | short (letters : List Char)
deriving Repr, DecidableEq

namespace Argument

def ofLong (s : List Char) : Argument :=
  let value := (s.dropWhile (· ≠ '=')).tail?.map String.ofList
  long (String.ofList (s.takeWhile (· ≠ '='))) value

def ofText (text : String) : Argument :=
  match text.toList with
  | ['-', '-'] => doubleDash
  | '-' :: '-' :: s => ofLong s
  | ['-'] => value text
  | '-' :: letters => short letters
  | _ => value text

end Argument

/-- What an argument does to the options read so far. -/
inductive Effect (σ : Type)
  | update (options : σ)
  | finish (request : Request)

/-- A switch can be given once. -/
def switch {σ : Type} (isOn : Bool) (options : σ) : Effect σ :=
  if isOn then .finish .misuse else .update options

/-- The options and paths of a subcommand as far as they have been read. -/
structure Draft where
  command : ConvertCommand := {}
  verbose : Bool := false
deriving Repr, DecidableEq

namespace Draft

/-- Takes a path, unless it is empty or one too many. -/
def addPath (d : Draft) (subcommand : Subcommand) (path : String) : Effect Draft :=
  if path = "" || !subcommand.admitsPath d.command.paths.length then .finish .misuse
  else .update { d with command := { d.command with paths := d.command.paths ++ [path] } }

def setOutDir (d : Draft) (directory : String) : Effect Draft :=
  if directory = "" || d.command.outDir.isSome then .finish .misuse
  else .update { d with command := { d.command with outDir := some directory } }

def setVerbose (d : Draft) : Effect Draft :=
  switch d.verbose { d with verbose := true }

/-- The switches of `convert` that have a name only. -/
def setSwitch (d : Draft) (name : String) : Effect Draft :=
  let c := d.command
  if name = "no-source-comment" then
    switch c.noSourceComment { d with command := { c with noSourceComment := true } }
  else if name = "lenient-partials" then
    switch c.lenientPartials { d with command := { c with lenientPartials := true } }
  else if name = "stdout" then switch c.stdout { d with command := { c with stdout := true } }
  else .finish .misuse

end Draft

def readLetters : Draft → List Char → Effect Draft
  | d, [] => .update d
  | d, 'v' :: letters =>
    match d.setVerbose with
    | .update d => readLetters d letters
    | .finish request => .finish request
  | _, 'h' :: _ => .finish .help
  | _, _ => .finish .misuse

def readPaths (subcommand : Subcommand) : Draft → List String → Effect Draft
  | d, [] => .update d
  | d, path :: rest =>
    match d.addPath subcommand path with
    | .update d => readPaths subcommand d rest
    | .finish request => .finish request

/-- A name without a value; only `convert` has switches of its own. -/
def readName (subcommand : Subcommand) (d : Draft) (name : String) : Effect Draft :=
  if name = "verbose" then d.setVerbose
  else if name = "help" then .finish .help
  else if subcommand = .convert then d.setSwitch name
  else .finish .misuse

def readArguments (subcommand : Subcommand) : Draft → List String → Effect Draft
  | d, [] => .update d
  | d, argument :: rest =>
    match Argument.ofText argument with
    | .doubleDash => readPaths subcommand d rest
    | .value path =>
      match d.addPath subcommand path with
      | .update d => readArguments subcommand d rest
      | .finish request => .finish request
    | .short letters =>
      match readLetters d letters with
      | .update d => readArguments subcommand d rest
      | .finish request => .finish request
    | .long name (some value) =>
      if subcommand = .convert && name = "out-dir" then
        match d.setOutDir value with
        | .update d => readArguments subcommand d rest
        | .finish request => .finish request
      else .finish .misuse
    | .long name none =>
      if subcommand = .convert && name = "out-dir" then
        match rest with
        | [] => .finish .misuse
        | next :: rest =>
          match Argument.ofText next with
          | .value directory =>
            match d.setOutDir directory with
            | .update d => readArguments subcommand d rest
            | .finish request => .finish request
          | _ => .finish .misuse
      else
        match readName subcommand d name with
        | .update d => readArguments subcommand d rest
        | .finish request => .finish request

def readConvert (arguments : List String) : Request :=
  match readArguments .convert {} arguments with
  | .finish request => request
  | .update d => if d.command.paths = [] then .misuse else .convert d.command

def readAst (arguments : List String) : Request :=
  match readArguments .ast {} arguments with
  | .finish request => request
  | .update d =>
    match d.command.paths with
    | [file] => .ast file
    | _ => .misuse

def readHelp : List String → Request
  | [] => .help
  | ["convert"] => .help
  | ["ast"] => .help
  | ["help"] => .help
  | _ => .misuse

/-- Single letters before the subcommand. The result tells whether `v` was among them. -/
def readTopLetters : Bool → List Char → Effect Bool
  | verbose, [] => .update verbose
  | verbose, 'v' :: letters => if verbose then .finish .misuse else readTopLetters true letters
  | _, 'V' :: _ => .finish .version
  | _, 'h' :: _ => .finish .help
  | _, _ => .finish .misuse

/-- The arguments up to the subcommand. -/
def readTop : Bool → List String → Request
  | _, [] => .misuse
  | verbose, argument :: rest =>
    match Argument.ofText argument with
    | .doubleDash => .misuse
    | .value name =>
      if name = "convert" then readConvert rest
      else if name = "ast" then readAst rest
      else if name = "help" then readHelp rest
      else .misuse
    | .short letters =>
      match readTopLetters verbose letters with
      | .update verbose => readTop verbose rest
      | .finish request => request
    | .long name none =>
      if name = "verbose" then if verbose then .misuse else readTop true rest
      else if name = "version" then .version
      else if name = "help" then .help
      else .misuse
    | .long _ (some _) => .misuse

def Request.ofArguments (arguments : List String) : Request :=
  readTop false arguments

end Stencil.CommandLine
