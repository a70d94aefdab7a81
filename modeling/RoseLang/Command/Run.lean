import RoseLang.Command.Listing
import RoseLang.Command.Request
import RoseLang.Command.Usage
import RoseLang.Diagnostic.OfError
import RoseLang.Diagnostic.Report
import RoseLang.Diagnostic.Snippet
import RoseLang.Parse.File
import RoseLang.Syntax.Sexp

/-!
# Running the command

What a request prints and with which status it ends, given the contents of its file. For a reader,
diagnostics go to the error output and listings to the standard output; a JSON report goes to the
standard output and is all that is printed there. The status is 1 if anything is wrong, else 0.
-/

namespace RoseLang.Command

open Text

/-- What the command prints, row by row, and its exit status. -/
structure Output where
  out : List Painted
  err : List Painted
  status : Nat
  deriving DecidableEq, Repr

/-- Why a file cannot be read. -/
inductive ReadError where
  | notFound
  | isDirectory
  | notUtf8
  | other (message : String)
  deriving DecidableEq, Repr

def ReadError.message : ReadError → String
  | notFound => "No such file or directory (os error 2)"
  | isDirectory => "Is a directory (os error 21)"
  | notUtf8 => "stream did not contain valid UTF-8"
  | other message => message

/-- The text of rows, each ended by a line feed. -/
def renderRows (colour : Bool) (rows : List Painted) : String :=
  String.join (rows.map fun row => Painted.render colour row ++ "\n")

def failure (message : String) : Output :=
  ⟨[], [boldHued .red "error" ++ plain (": " ++ message)], 1⟩

/-- Diagnostics for a reader, each followed by an empty row. -/
def diagnosticRows (file : SourceFile) (source : String) (ds : List Diagnostic) : List Painted :=
  ds.flatMap fun d => Snippet.rows file source d ++ [[]]

/-- A listing under its heading. -/
def listing (title : String) (rows : List Painted) : List Painted :=
  listingHead title rows.length :: [] :: rows

/-- The JSON report of a phase, with the status that it entails. -/
def reportOutput (file : SourceFile) (source : String) (phase : Phase) (ds : List Diagnostic) : Output :=
  ⟨[plain (Report.ofDiagnostics file source phase.name ds).text], [], if ds.isEmpty then 0 else 1⟩

def lex (file : SourceFile) (source : String) (format : Format) : Output :=
  let (tokens, errors) := (Lexer.ofText source ⟨file.base⟩).tokenize
  let ds := errors.map LexError.toDiagnostic
  match format with
  | .json => reportOutput file source .lex ds
  | .human =>
    let rows := listing "Tokens" (tokens.map fun t => tokenRow (file.position t.pos) t)
    if errors.isEmpty then ⟨rows ++ [[], verdict "Lex" 0], [], 0⟩
    else ⟨rows, diagnosticRows file source ds ++ [[], verdict "Lex" errors.length], 1⟩

/-- A listing after an empty row, unless there is nothing to list. -/
def furtherListing (title : String) (rows : List Painted) : List Painted :=
  if rows.isEmpty then [] else [] :: listing title rows

def parse (file : SourceFile) (source : String) (format : Format) (allErrors : Bool) : Output :=
  let result := file.parse source allErrors
  let ds := result.errors.map ParseError.toDiagnostic
  match format with
  | .json => reportOutput file source .parse ds
  | .human =>
    if result.isOk then
      let objects := result.objects.map fun o => objectRow o.kind.name o.name (file.position o.pos)
      let unresolved := result.file.unresolved.map fun i => unresolvedRow i.name (file.position i.pos)
      ⟨listing "Statements" (result.file.stmts.map fun s => plain s.sexp)
          ++ furtherListing "Objects" objects ++ furtherListing "Unresolved" unresolved
          ++ [[], verdict "Parse" 0], [], 0⟩
    else ⟨[], diagnosticRows file source ds ++ [[], verdict "Parse" ds.length], 1⟩

/-- Runs a phase on a file with the given contents. -/
def Job.run (job : Job) (contents : Except ReadError String) : Output :=
  match contents with
  | .error e => failure ("reading " ++ job.path ++ ": " ++ e.message)
  | .ok source =>
    match FileSet.empty.add job.path source with
    | .error e => failure e.message
    | .ok (file, _) =>
      match job.phase with
      | .lex => lex file source job.format
      | .parse => parse file source job.format job.allErrors

/-- Answers a request; `read` gives the contents of a file. -/
def Request.answer (read : String → Except ReadError String) : Request → Output
  | usage => ⟨Command.usage, [], 0⟩
  | version => ⟨[plain ("rose " ++ Command.version)], [], 0⟩
  | run job => job.run (read job.path)
  | unknownCommand name => ⟨Command.usage, [plain ("Unknown command: " ++ name)], 1⟩
  | invalid message => failure message

end RoseLang.Command
