import RoseLang.Parse.Fault
import RoseLang.Scope.Resolver
import RoseLang.Syntax.Stmt
import RoseLang.Token.Lexer

/-!
# The state of a parse

A parse reads tokens one at a time. A fault is reported and the parse goes on, if need be at the next
token that may start a statement. Unless all faults are wanted, a fault on the line of the last one kept
is passed over, and once there are too many a further one stops the parse. What had been made by then
stays in the state.
-/

namespace RoseLang.Parse

/-- A fault and where it is. -/
structure Finding where
  pos : Pos
  fault : Fault
  deriving DecidableEq, Repr

/-- Why a parse ends before the end of its file. -/
inductive Stop where
  | tooManyErrors
  deriving DecidableEq, Repr

def Stop.message : Stop → String
  | tooManyErrors => "too many errors"

structure State where
  /-- The file that gives the positions their lines. -/
  file : SourceFile
  /-- Whether every fault is wanted. -/
  allErrors : Bool
  /-- The token under consideration. -/
  token : Token
  /-- The tokens after it; none after the end token. -/
  rest : List Lexeme
  /-- Where the last recovery stopped, and how often another one stopped there again. -/
  syncPos : Pos
  syncCount : Nat
  /-- How many levels of nesting of the current expression have been entered. -/
  depth : Nat
  /-- Whether the expression stands where an equals sign cannot be an assignment. -/
  inRhs : Bool
  nextId : NodeId
  /-- The complete statements. -/
  stmts : List Stmt
  names : Resolver
  /-- The faults kept, in the order in which they were met. -/
  findings : List Finding

/-- The deepest nesting of an expression. Each parenthesis, each unary operator and each binary
operator of a chain enters one level. -/
def maxDepth : Nat := 128

/-- How often recovery may stop again at the same token. -/
def maxRetries : Nat := 10

/-- With more faults than these nothing further is kept, unless all faults are wanted. -/
def maxErrors : Nat := 10

/-- The tokens at which a statement surely starts, where recovery stops. -/
def statementStarts : List Kind :=
  [.breakWord, .constWord, .continueWord, .fallthroughWord, .ifWord, .letWord, .returnWord, .varWord]

/-- The tokens at which an expression surely ends. -/
def expressionEnds : List Kind := [.comma, .colon, .semi, .rparen, .rbrack, .rbrace]

namespace State

/-- The state before the first token of a file. -/
def start (file : SourceFile) (allErrors : Bool) (tokens : List Lexeme) : State where
  file := file
  allErrors := allErrors
  token := ⟨.illegal, ⟨.none, .none⟩, ""⟩
  rest := tokens
  syncPos := .none
  syncCount := 0
  depth := 0
  inRhs := false
  nextId := 0
  stmts := []
  names := .empty
  findings := []

def keep (s : State) (finding : Finding) : State := { s with findings := s.findings ++ [finding] }

/-- Whether the place is on the line of the last fault kept. -/
def repeatsLine (s : State) (pos : Pos) : Bool :=
  s.findings.getLast?.any fun last => (s.file.position last.pos).line = (s.file.position pos).line

def isFull (s : State) : Bool := maxErrors < s.findings.length

/-- Keeps a fault that was met while a token was read, or passes it over. It never stops the parse. -/
def keepLexical (s : State) (e : LexError) : State :=
  if !s.allErrors && (s.repeatsLine e.span.start || s.isFull) then s
  else s.keep ⟨e.span.start, .lexical e.message⟩

/-- Goes on to the next token. The end token stays. -/
def next (s : State) : State :=
  match s.rest with
  | [] => s
  | l :: rest => l.errors.foldl keepLexical { s with token := l.token, rest }

@[simp] theorem rest_keepLexical (s : State) (e : LexError) : (s.keepLexical e).rest = s.rest := by
  rw [keepLexical]
  split <;> rfl

@[simp] theorem rest_foldl_keepLexical (es : List LexError) (s : State) :
    (es.foldl keepLexical s).rest = s.rest := by
  induction es generalizing s with
  | nil => rfl
  | cons e es ih => rw [List.foldl_cons, ih, rest_keepLexical]

@[simp] theorem rest_next (s : State) : s.next.rest = s.rest.tail := by
  rw [next]
  split
  · next h => rw [h]; rfl
  · next h => rw [h]; simp

/-- Whether recovery may stop at the token; if so, the state that remembers it. A token behind the last
stop is always good, the last stop itself a limited number of times. -/
def stop? (kinds : List Kind) (s : State) : Option State :=
  if kinds.contains s.token.kind then
    if s.token.pos = s.syncPos ∧ s.syncCount < maxRetries then
      some { s with syncCount := s.syncCount + 1 }
    else if s.syncPos.index < s.token.pos.index then
      some { s with syncPos := s.token.pos, syncCount := 0 }
    else none
  else none

/-- Skips tokens up to one of the given kinds at which recovery may stop, or to the end. -/
def skipTo (kinds : List Kind) (s : State) : State :=
  if s.token.kind = .eof then s
  else
    match s.stop? kinds with
    | some stopped => stopped
    | none => if s.rest = [] then s else skipTo kinds s.next
termination_by s.rest.length
decreasing_by
  rename_i h
  have := List.length_pos_iff.mpr h
  simp only [rest_next, List.length_tail]
  omega

end State

/-- A parser changes the state and gives a value, or stops the parse and leaves the state as it is. -/
abbrev Parser := EStateM Stop State

/-- The state in which a parser ends, stopped or not. -/
def endState {α : Type} (p : Parser α) (s : State) : State :=
  match p s with
  | .ok _ s' => s'
  | .error _ s' => s'

def next : Parser Unit := modify State.next

def currentToken : Parser Token := return (← get).token

def currentKind : Parser Kind := return (← get).token.kind

def currentPos : Parser Pos := return (← get).token.pos

/-- Reports a fault. -/
def report (pos : Pos) (fault : Fault) : Parser Unit := do
  let s ← get
  if s.allErrors then set (s.keep ⟨pos, fault⟩)
  else if s.repeatsLine pos then return
  else if s.isFull then throw .tooManyErrors
  else set (s.keep ⟨pos, fault⟩)

/-- Reports that something else was expected at the current token. -/
def expected (what : Expectation) : Parser Unit := do
  let t ← currentToken
  report t.pos (.expected what t.kind t.text)

/-- Reports a fault, if there is one. -/
def reportAny : Option (Pos × Fault) → Parser Unit
  | some (pos, fault) => report pos fault
  | none => return

/-- Reports that the current token should be of the given kind, unless it is. -/
def require (kind : Kind) : Parser Unit := do
  if (← currentKind) = kind then return
  else expected (.token kind)

/-- Goes past the current token, which should be of the given kind, and gives its position. -/
def expect (kind : Kind) : Parser Pos := do
  let pos ← currentPos
  require kind
  next
  return pos

/-- Goes past a terminator. It may be missing before `)` and `}`; missing elsewhere it is reported. -/
def expectSemi : Parser Unit := do
  match ← currentKind with
  | .rparen | .rbrace => return
  | .semi => next
  | _ => expected (.token .semi)

def freshId : Parser NodeId := modifyGet fun s => (s.nextId, { s with nextId := s.nextId + 1 })

def skipTo (kinds : List Kind) : Parser Unit := modify (State.skipTo kinds)

/-- Skips tokens and gives the span from the current token to where that ends. -/
def skipped (kinds : List Kind) (complaint : Parser Unit) : Parser Span := do
  let start ← currentPos
  complaint
  skipTo kinds
  return ⟨start, ← currentPos⟩

/-- A bad expression made of the tokens that are skipped. -/
def skippedExpr (kinds : List Kind) (complaint : Parser Unit) : Parser Expr := do
  let span ← skipped kinds complaint
  return .bad (← freshId) span.start span.stop

/-- Stands for an expression that would be nested too deeply. The rest of the statement is skipped. -/
def tooDeep : Parser Expr :=
  skippedExpr statementStarts do report (← currentPos) .tooDeep

def enter : Parser Unit := modify fun s => { s with depth := s.depth + 1 }

def leave : Parser Unit := modify fun s => { s with depth := s.depth - 1 }

/-- Leaves all levels at once that `p` has entered. -/
def keepDepth {α : Type} (p : Parser α) : Parser α := do
  let depth := (← get).depth
  let a ← p
  modify fun s => { s with depth }
  return a

/-- Runs `p` as a right-hand side, or not as one. -/
def withRhs {α : Type} (inRhs : Bool) (p : Parser α) : Parser α := do
  let old := (← get).inRhs
  modify fun s => { s with inRhs }
  let a ← p
  modify fun s => { s with inRhs := old }
  return a

/-- Looks the identifier up; one that is not known is collected. -/
def resolve (ident : Ident) : Parser (Ident × Option ObjectId) :=
  modifyGet fun s =>
    let (ident, object, names) := s.names.resolve ident true
    ((ident, object), { s with names })

/-- Looks the expression up if it is a mere name. -/
def resolveExpr : Expr → Parser Expr
  | .ident id name => return .ident id (← resolve name).1
  | e => return e

/-- Looks the expression up, if `now` is set. -/
def resolveIf (now : Bool) (e : Expr) : Parser Expr :=
  if now then resolveExpr e else return e

end RoseLang.Parse
