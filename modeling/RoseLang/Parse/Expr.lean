import RoseLang.Parse.State

/-!
# Parsing expressions and types

A chain of operands and binary operators is read by precedence: `floor` is the least precedence of an
operator that the chain may take. The argument `room` is the number of nesting levels that may still be
entered; a step that needs a level passes on one less, and without room what follows is skipped.
-/

namespace RoseLang.Parse

/-- A name. A missing one is reported, and the blank name stands for it. -/
def ident : Parser Ident := do
  let t ← currentToken
  if t.kind = .ident then
    next
    return ⟨← freshId, t.pos, t.text, .unbound⟩
  else
    let pos ← expect .ident
    return ⟨← freshId, pos, Ident.blank, .unbound⟩

/-- An operand other than a parenthesis: a literal or a name, which is looked up unless it stands at
the start of a left-hand side. -/
def leaf (lhs : Bool) : Parser Expr := do
  let t ← currentToken
  match LiteralKind.ofToken? t.kind with
  | some kind =>
    next
    return .literal (← freshId) ⟨t.pos, kind, t.text⟩
  | none =>
    if t.kind = .ident then
      let name ← ident
      resolveIf (!lhs) (.ident (← freshId) name)
    else skippedExpr statementStarts (expected .operand)

/-- The binary operator that the current token writes. On a right-hand side a stray `=` is read as
`==`. -/
def operator? : Parser (Option BinaryOp) := do
  let s ← get
  let kind := s.token.kind
  return BinaryOp.ofToken? (if s.inRhs && kind = .assign then .eql else kind)

mutual

/-- An operand with the unary operators before it. -/
def unary (room : Nat) (lhs : Bool) : Parser Expr := do
  let t ← currentToken
  match UnaryOp.ofToken? t.kind with
  | some op =>
    match room with
    | 0 => tooDeep
    | room + 1 =>
      enter
      next
      let operand ← unary room false
      leave
      return .unary (← freshId) op t.pos operand
  | none =>
    if t.kind = .lparen then
      match room with
      | 0 => tooDeep
      | room + 1 =>
        enter
        next
        let inner ← withRhs true <| keepDepth do
          let first ← unary room false
          chain room false 1 first
        leave
        let rparen ← expect .rparen
        return .paren (← freshId) t.pos inner rparen
    else leaf lhs

/-- The rest of a chain that starts with `left`. Once there is no room, the rest of the statement is
skipped, so that no further operator follows. -/
def chain (room : Nat) (lhs : Bool) (floor : Nat) (left : Expr) : Parser Expr := do
  match ← operator? with
  | none => return left
  | some op =>
    if op.precedence < floor then return left
    else
      let opPos ← expect op.token
      let left ← resolveIf lhs left
      match room with
      | 0 =>
        let right ← tooDeep
        return .binary (← freshId) op opPos left right
      | room + 1 =>
        enter
        let right ← keepDepth do
          let first ← unary room false
          chain room false op.rightFloor first
        let joined := Expr.binary (← freshId) op opPos left right
        chain room false floor joined

end

/-- The number of levels that may still be entered. -/
def roomLeft : Parser Nat := return maxDepth - (← get).depth

/-- An expression. With `lhs` a name at its start is left for the caller to look up. -/
def expr (lhs : Bool) : Parser Expr := do
  let room ← roomLeft
  keepDepth do
    let first ← unary room lhs
    chain room lhs 1 first

/-- Further expressions after commas, at most `n`. -/
def moreExprs (lhs : Bool) : Nat → Parser (List Expr)
  | 0 => return []
  | n + 1 => do
    if (← currentKind) = .comma then
      next
      let e ← expr lhs
      return e :: (← moreExprs lhs n)
    else return []

/-- Expressions separated by commas: the first one and the others. -/
def exprList (lhs : Bool) : Parser (Expr × List Expr) := do
  let first ← expr lhs
  let others ← moreExprs lhs (← get).rest.length
  return (first, others)

/-- The left-hand side of a statement. Its names are looked up once all of it is known. -/
def lhsList : Parser (Expr × List Expr) := do
  let (first, others) ← withRhs false (exprList true)
  if (← currentKind) = .colon then return (first, others)
  else return (← resolveExpr first, ← others.mapM resolveExpr)

def rhsList : Parser (List Expr) := do
  let (first, others) ← withRhs true (exprList false)
  return first :: others

/-! ### Types -/

/-- The names of the types that are there without a declaration. -/
def builtinTypes : List String := ["any", "bool", "char", "float", "int", "string"]

/-- The type that was found; or else what is skipped, as a bad one. -/
def typeOrSkipped : Option Expr → Parser Expr
  | some type => return type
  | none => skippedExpr expressionEnds (expected .type)

/-- A type that has not been looked up, if one starts here. -/
def bareType? (room : Nat) : Parser (Option Expr) := do
  let t ← currentToken
  if t.kind = .ident then
    let name ← ident
    return some (.ident (← freshId) name)
  else if t.kind = .lparen then
    match room with
    | 0 => return some (← tooDeep)
    | room + 1 =>
      enter
      next
      let found ← bareType? room
      let inner ← typeOrSkipped found
      leave
      let rparen ← expect .rparen
      return some (.paren (← freshId) t.pos inner rparen)
  else return none

/-- Looks up the name inside a type. The built-in types are not looked up, and a name that denotes an
object is no type. -/
def resolveType : Expr → Parser Expr
  | .paren id lparen inner rparen => return .paren id lparen (← resolveType inner) rparen
  | .ident id name =>
    if builtinTypes.contains name.name then return .ident id name
    else do
      let (name, object) ← resolve name
      reportAny (object.map fun _ => (name.pos, .notType name.name))
      return .ident id name
  | e => return e

/-- A type, if one starts here. -/
def type? : Parser (Option Expr) := do
  match ← bareType? (← roomLeft) with
  | some type => return some (← resolveType type)
  | none => return none

end RoseLang.Parse
