import RoseLang.Parse.Stmt
import RoseLang.Source.FileSet

/-!
# Parsing a file

A file is parsed statement by statement, to its end or until the parse stops at too many errors; either
way the statements completed by then are kept. A file whose very first token is faulty is not parsed at
all.
-/

namespace RoseLang

/-- What a parse makes of a file. The errors are in the order of their positions. -/
structure ParseResult where
  file : File
  objects : List Object
  scopes : ScopeTree
  errors : List ParseError
  deriving DecidableEq, Repr

namespace Parse

/-- A statement ends at the latest after one token and as many retries as recovery allows, so this many
statements suffice for `tokens` tokens. -/
def maxStmts (tokens : Nat) : Nat := (maxRetries + 2) * tokens

/-- Opens the scope of the file. -/
def openFile : Parser Unit := modify fun s => { s with names := (s.names.openScope .file).2 }

/-- Parses all of at most `tokens` tokens. -/
def all (tokens : Nat) : Parser Unit := do
  next
  if (← get).findings.isEmpty then
    openFile
    stmts (maxStmts tokens)

/-- What a parse has made when it ends in the state `s`. Errors at the same position keep the order in
which they were met. -/
def State.result (s : State) : ParseResult where
  file := ⟨s.stmts, s.names.unresolved⟩
  objects := s.names.objects
  scopes := s.names.closeScope.scopes
  errors := (s.findings.map fun f => ParseError.ofFault s.file f.pos f.fault).mergeSort
    fun a b => a.pos.index ≤ b.pos.index

end Parse

/-- Parses a source text that has its positions from `file`. -/
def SourceFile.parse (file : SourceFile) (source : String) (allErrors : Bool) : ParseResult :=
  let tokens := (Lexer.ofText source ⟨file.base⟩).lexemes
  (Parse.endState (Parse.all tokens.length) (.start file allErrors tokens)).result

namespace ParseResult

def isOk (r : ParseResult) : Bool := r.errors.isEmpty

/-- The result for a text that has no positions, and so was not parsed. -/
def rejected (e : SourceError) : ParseResult :=
  ⟨⟨[], []⟩, [], .empty, [⟨.unknown "", .none, .lexical, e.message, none, none⟩]⟩

end ParseResult

/-- Parses a source text without a name. -/
def parse (source : String) (allErrors : Bool) : ParseResult :=
  match SourceFile.ofText "" 1 source with
  | .ok file => file.parse source allErrors
  | .error e => .rejected e

/-- Adds a file to the set and parses it. -/
def FileSet.parse (s : FileSet) (name source : String) (allErrors : Bool) :
    Except SourceError (ParseResult × FileSet) := do
  let (file, s) ← s.add name source
  return (file.parse source allErrors, s)

end RoseLang
