import RoseLang.Scope.Object
import RoseLang.Source.File

/-!
# Faults of a program text

What can be wrong with a program text, as causes. A fault has a kind, a message and sometimes a hint
at the mending; `ParseError` is the fault with its place, as it is reported. Only the message of a
redeclaration mentions a place, that of the first declaration.
-/

namespace RoseLang

/-- Where an error belongs: in the characters, in the order of the tokens, or in the declarations. -/
inductive ErrorKind where
  | lexical
  | syntactic
  | semantic
  deriving DecidableEq, Repr, Inhabited

def ErrorKind.name : ErrorKind → String
  | lexical => "lexical"
  | syntactic => "syntax"
  | semantic => "semantic"

namespace Parse

/-- What the grammar asks for where something else was found. -/
inductive Expectation where
  | token (kind : Kind)
  | operand
  | type
  | statement
  deriving DecidableEq, Repr

namespace Expectation

def text : Expectation → String
  | token kind => "'" ++ kind.spelling ++ "'"
  | operand => "operand"
  | type => "type"
  | statement => "statement"

/-- A hint for one who wrote a token of kind `found` instead. -/
def hint (found : Kind) : Expectation → Option String
  | token .rparen =>
    match found with
    | .eof => some "add ')' to close the parenthesis"
    | .semi => some "add ')' before the end of the line"
    | _ => none
  | token .eql => if found = .assign then some "use '==' to compare values" else none
  | token .ident =>
    if found = .int ∨ found = .float then some "names can't start with a number"
    else if found.isKeyword then some "keywords can't be used as names"
    else some "names start with a letter or '_'"
  | token .semi => some "end statements with a newline or ';'"
  | token _ => none
  | operand =>
    match found with
    | .eof | .semi => some "the expression is incomplete"
    | .assign => some "put the value after '='"
    | _ => some "try a name, a literal, or a parenthesized expression"
  | type => some "try a type like 'int', 'string', or 'bool'"
  | statement => some "statements start with 'const', 'let', 'var', or an expression"

end Expectation

inductive Fault where
  | lexical (message : String)
  | expected (what : Expectation) (found : Kind) (text : String)
  | severalExpressions
  | tooDeep
  | missingTypeOrValue
  | missingValue
  | missingConstant
  | surplusValue
  | notType (name : String)
  | redeclared (redeclaration : Redeclaration)
  deriving DecidableEq, Repr

/-- How a message names the token that was found. -/
def foundText (found : Kind) (text : String) : String :=
  if found = .semi ∧ text = "\n" then "newline"
  else if found.isLiteral then text
  else "'" ++ found.spelling ++ "'"

namespace Fault

def kind : Fault → ErrorKind
  | lexical _ => .lexical
  | expected .. | severalExpressions | tooDeep => .syntactic
  | missingTypeOrValue | missingValue | missingConstant | surplusValue | notType _ | redeclared _ =>
    .semantic

/-- The message of a fault in the given file. -/
def message (file : SourceFile) : Fault → String
  | lexical message => message
  | expected what found text => "expected " ++ what.text ++ ", found " ++ foundText found text
  | severalExpressions => "expected 1 expression"
  | tooDeep => "exceeded max nesting depth"
  | missingTypeOrValue => "missing variable type or initialization"
  | missingValue => "missing initialization"
  | missingConstant => "missing constant value"
  | surplusValue => "extra init expr"
  | notType name => name ++ " is not a type"
  | redeclared r =>
    match r.previous? with
    | some first => r.message ++ "\n\tprevious declaration at " ++ (file.position first).text
    | none => r.message

def hint : Fault → Option String
  | expected what found _ => what.hint found
  | severalExpressions => some "only assignments may list several expressions"
  | missingTypeOrValue => some "write 'var x int' or 'var x = value'"
  | missingValue => some "give every name a value after '='"
  | missingConstant => some "constants need a value: 'const x = 1'"
  | surplusValue => some "there are more values than names"
  | lexical _ | tooDeep | notType _ | redeclared _ => none

def cause : Fault → Option Redeclaration
  | redeclared r => some r
  | _ => none

end Fault

end Parse

/-- An error as it is reported: where it is, what is wrong, and what may help. The cause of a
redeclaration tells both places. -/
structure ParseError where
  position : Position
  pos : Pos
  kind : ErrorKind
  message : String
  hint : Option String
  cause : Option Redeclaration
  deriving DecidableEq, Repr

namespace ParseError

def text (e : ParseError) : String := e.position.text ++ ": " ++ e.message

/-- The fault at `pos` in the given file. -/
def ofFault (file : SourceFile) (pos : Pos) (fault : Parse.Fault) : ParseError where
  position := file.position pos
  pos := pos
  kind := fault.kind
  message := fault.message file
  hint := fault.hint
  cause := fault.cause

end ParseError

end RoseLang
