import RoseLang.Parse.Expr

/-!
# Parsing declarations and statements

A spec declares its names after its values have been read, so that no value can refer to them. Whether
its type and values suit the keyword is checked first, by `shapeFault?`.
-/

namespace RoseLang.Parse

/-- Further names after commas, at most `n`. -/
def moreNames : Nat → Parser (List Ident)
  | 0 => return []
  | n + 1 => do
    if (← currentKind) = .comma then
      next
      let name ← ident
      return name :: (← moreNames n)
    else return []

def nameList : Parser (List Ident) := do
  let first ← ident
  let others ← moreNames (← get).rest.length
  return first :: others

/-- What is wrong with the shape of a spec that starts at `pos`, and where. In a group a constant after
the first may lack both type and value; it takes nothing over from those before. -/
def shapeFault? (keyword : DeclKeyword) (index : Nat) (pos : Pos) (names : List Ident)
    (type : Option Expr) (values : List Expr) : Option (Pos × Fault) :=
  if values.isEmpty then
    match keyword with
    | .varWord => if type.isNone then some (pos, .missingTypeOrValue) else none
    | .letWord => some (pos, .missingValue)
    | .constWord => if index = 0 ∨ type.isSome then some (pos, .missingConstant) else none
  else if values.length < names.length then
    some (pos, if keyword = .constWord then .missingConstant else .missingValue)
  else
    match values[names.length]? with
    | some surplus => some (surplus.pos, .surplusValue)
    | none => none

/-- What the names of a declaration denote. -/
def objectKind : DeclKeyword → ObjectKind
  | .constWord | .letWord => .const
  | .varWord => .var

/-- Declares one name of a spec. -/
def declare (kind : ObjectKind) (decl : NodeId) (index : Nat) (name : Ident) : Parser Ident := do
  let s ← get
  let (name, again, names) := s.names.declare name kind decl index
  set { s with names }
  reportAny (again.map fun r => (r.pos, .redeclared r))
  return name

/-- The values after an equals sign; none without one. -/
def initialValues : Parser (List Expr) := do
  if (← currentKind) = .assign then
    next
    rhsList
  else return []

/-- Names with their type and values; `index` is the place of the spec in its group. -/
def spec (keyword : DeclKeyword) (index : Nat) : Parser Spec := do
  let pos ← currentPos
  let names ← nameList
  let type ← type?
  let values ← initialValues
  expectSemi
  reportAny (shapeFault? keyword index pos names type values)
  let id ← freshId
  let names ← names.mapM (declare (objectKind keyword) id index)
  return ⟨id, names, type, values⟩

/-- The specs of a group up to its right parenthesis, at most `n`. -/
def specs (keyword : DeclKeyword) (index : Nat) : Nat → Parser (List Spec)
  | 0 => return []
  | n + 1 => do
    match ← currentKind with
    | .rparen | .eof => return []
    | _ =>
      let first ← spec keyword index
      return first :: (← specs keyword (index + 1) n)

/-- A declaration with the given keyword, which is the current token. -/
def decl (keyword : DeclKeyword) : Parser Decl := do
  let keywordPos ← expect keyword.token
  if (← currentKind) = .lparen then
    let lparen ← expect .lparen
    let entries ← specs keyword 0 (← get).rest.length
    let rparen ← expect .rparen
    expectSemi
    return .specs (← freshId) keyword keywordPos lparen entries rparen
  else
    let entry ← spec keyword 0
    return .specs (← freshId) keyword keywordPos .none [entry] .none

/-- An expression, an increment or decrement, or an assignment, but for its number. -/
def simple : Parser (NodeId → Stmt) := do
  let (first, others) ← lhsList
  let t ← currentToken
  match AssignOp.ofToken? t.kind with
  | some op =>
    next
    let right ← rhsList
    return fun id => .assign id (first :: others) op t.pos right
  | none =>
    reportAny (if others.isEmpty then none else some (first.pos, .severalExpressions))
    match t.kind with
    | .inc =>
      next
      return fun id => .incDec id first t.pos true
    | .dec =>
      next
      return fun id => .incDec id first t.pos false
    | _ => return fun id => .expr id first

/-- Whether a token of the kind may start an operand. -/
def startsOperand (k : Kind) : Bool :=
  k.isLiteral || k = .lparen || (UnaryOp.ofToken? k).isSome

def stmt : Parser Stmt := do
  let t ← currentToken
  match DeclKeyword.ofToken? t.kind with
  | some keyword =>
    let d ← decl keyword
    return .decl (← freshId) d
  | none =>
    if startsOperand t.kind then
      let made ← simple
      expectSemi
      return made (← freshId)
    else if t.kind = .semi then
      next
      return .empty (← freshId) t.pos t.isImplicitSemi
    else
      let span ← skipped statementStarts (expected .statement)
      return .bad (← freshId) span.start span.stop

/-- The statements up to the end token, at most `n`. -/
def stmts : Nat → Parser Unit
  | 0 => return
  | n + 1 => do
    if (← currentKind) = .eof then return
    let made ← stmt
    modify fun s => { s with stmts := s.stmts ++ [made] }
    stmts n

end RoseLang.Parse
