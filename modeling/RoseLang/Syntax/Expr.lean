import RoseLang.Syntax.Ident
import RoseLang.Syntax.Operator

/-!
# Expressions

Expression trees keep parentheses, the positions of all tokens and the text of literals as written. A
`bad` expression covers tokens of which no expression could be made. Types are expressions too: names,
possibly in parentheses.
-/

namespace RoseLang

/-- A literal with its text as written, quotes and radix marks included. -/
structure Literal where
  pos : Pos
  kind : LiteralKind
  text : String
  deriving DecidableEq, Repr, Inhabited

namespace Literal

def stop (l : Literal) : Pos := l.pos.advance l.text.utf8ByteSize

def span (l : Literal) : Span := ⟨l.pos, l.stop⟩

end Literal

inductive Expr where
  | bad (id : NodeId) (start stop : Pos)
  | ident (id : NodeId) (ident : Ident)
  | literal (id : NodeId) (literal : Literal)
  | paren (id : NodeId) (lparen : Pos) (inner : Expr) (rparen : Pos)
  | unary (id : NodeId) (op : UnaryOp) (opPos : Pos) (operand : Expr)
  | binary (id : NodeId) (op : BinaryOp) (opPos : Pos) (left right : Expr)
  deriving DecidableEq, Repr, Inhabited

namespace Expr

def id : Expr → NodeId
  | bad id .. | ident id .. | literal id .. | paren id .. | unary id .. | binary id .. => id

/-- The position of the first character of the expression. -/
def pos : Expr → Pos
  | bad _ start _ => start
  | ident _ i => i.pos
  | literal _ l => l.pos
  | paren _ lparen _ _ => lparen
  | unary _ _ opPos _ => opPos
  | binary _ _ _ left _ => left.pos

/-- The position right after the last character of the expression. -/
def stop : Expr → Pos
  | bad _ _ stop => stop
  | ident _ i => i.stop
  | literal _ l => l.stop
  | paren _ _ _ rparen => rparen.advance 1
  | unary _ _ _ operand => operand.stop
  | binary _ _ _ _ right => right.stop

def span (e : Expr) : Span := ⟨e.pos, e.stop⟩

def isBad : Expr → Bool
  | bad .. => true
  | _ => false

def ident? : Expr → Option Ident
  | ident _ i => some i
  | _ => none

/-- The expression without the parentheses around it. -/
def bare : Expr → Expr
  | paren _ _ inner _ => inner.bare
  | e => e

/-- The source form. Parentheses appear where the tree has them, and nowhere else. A sign before an
operand that starts with a sign is set off by a space, lest the two be read as one. -/
def source : Expr → String
  | bad .. => "BadExpr"
  | ident _ i => i.name
  | literal _ l => l.text
  | paren _ _ inner _ => "(" ++ inner.source ++ ")"
  | unary _ .not _ operand => "not " ++ operand.source
  | unary _ op _ operand =>
    let text := operand.source
    if text.toList.head?.any ("+-*/%&|^<>=!~".toList.contains ·) then op.spelling ++ " " ++ text
    else op.spelling ++ text
  | binary _ op _ left right => left.source ++ " " ++ op.spelling ++ " " ++ right.source

end Expr

end RoseLang
