/-!
# Command lines

What the arguments of the command ask for.
-/

namespace RoseLang.Command

/-- How results are printed: for a reader, or as a report in JSON. -/
inductive Format where
  | human
  | json
  deriving DecidableEq, Repr

/-- The two phases that can be run on a file. -/
inductive Phase where
  | lex
  | parse
  deriving DecidableEq, Repr

def Phase.name : Phase → String
  | .lex => "lex"
  | .parse => "parse"

/-- A phase to run on a file. -/
structure Job where
  phase : Phase
  path : String
  format : Format
  allErrors : Bool
  deriving DecidableEq, Repr

inductive Request where
  | usage
  | version
  | run (job : Job)
  | unknownCommand (name : String)
  | invalid (message : String)
  deriving DecidableEq, Repr

/-- What has been read of the arguments of a phase. -/
structure Options where
  path : Option String
  format : Format
  allErrors : Bool
  deriving DecidableEq, Repr

namespace Options

def none : Options := ⟨.none, .human, false⟩

/-- Reads the arguments from left to right and stops at the first that is wrong. -/
def read (phase : Phase) (options : Options) : List String → Except String Options
  | [] => .ok options
  | "--format" :: "human" :: more => read phase { options with format := .human } more
  | "--format" :: "json" :: more => read phase { options with format := .json } more
  | "--format" :: other :: _ =>
    .error ("unknown format '" ++ other ++ "' (expected human or json)")
  | ["--format"] => .error "--format needs a value"
  | argument :: more =>
    if argument = "--json" then read phase { options with format := .json } more
    else if argument = "--all-errors" ∨ argument = "-e" then
      read phase { options with allErrors := true } more
    else if "-".toList.isPrefixOf argument.toList then .error ("unknown flag '" ++ argument ++ "'")
    else if options.path.isSome then .error (phase.name ++ " takes a single file")
    else read phase { options with path := some argument } more

end Options

namespace Request

def ofPhase (phase : Phase) (arguments : List String) : Request :=
  match Options.none.read phase arguments with
  | .error message => .invalid message
  | .ok ⟨some path, format, allErrors⟩ => .run ⟨phase, path, format, allErrors⟩
  | .ok ⟨none, _, _⟩ =>
    .invalid ("Usage: rose " ++ phase.name ++ " <file.rose> [--format human|json] [--all-errors]")

/-- The request of a command line. A name that ends as source files do is a file to parse. -/
def ofArguments : List String → Request
  | [] => .usage
  | name :: arguments =>
    if name = "lex" then ofPhase .lex arguments
    else if name = "parse" then ofPhase .parse arguments
    else if name = "help" ∨ name = "--help" ∨ name = "-h" then .usage
    else if name = "version" ∨ name = "--version" ∨ name = "-V" then .version
    else if ".rose".toList.isSuffixOf name.toList then .run ⟨.parse, name, .human, false⟩
    else .unknownCommand name

/-- The file that has to be read for the request. -/
def path? : Request → Option String
  | run job => some job.path
  | _ => none

end Request

end RoseLang.Command
