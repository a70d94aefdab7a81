import RoseLang.Syntax.Expr

/-!
# Declarations, statements and files

A declaration introduces one spec, or a group of them in parentheses; it is grouped exactly if its left
parenthesis has a valid position. A file is its statements together with the identifiers that no scope
could resolve.
-/

namespace RoseLang

/-- Names declared together, with their type and initial values if given. -/
structure Spec where
  id : NodeId
  names : List Ident
  type : Option Expr
  values : List Expr
  deriving DecidableEq, Repr, Inhabited

namespace Spec

def pos (s : Spec) : Pos :=
  match s.names.head? with
  | some name => name.pos
  | none => .none

def stop (s : Spec) : Pos :=
  match s.values.getLast?, s.type, s.names.getLast? with
  | some value, _, _ => value.stop
  | none, some type, _ => type.stop
  | none, none, some name => name.stop
  | none, none, none => .none

def span (s : Spec) : Span := ⟨s.pos, s.stop⟩

end Spec

inductive Decl where
  | bad (id : NodeId) (start stop : Pos)
  | specs (id : NodeId) (keyword : DeclKeyword) (keywordPos lparen : Pos) (entries : List Spec)
    (rparen : Pos)
  deriving DecidableEq, Repr, Inhabited

namespace Decl

def id : Decl → NodeId
  | bad id .. | specs id .. => id

def isBad : Decl → Bool
  | bad .. => true
  | specs .. => false

def isGrouped : Decl → Bool
  | bad .. => false
  | specs _ _ _ lparen _ _ => lparen.isValid

def pos : Decl → Pos
  | bad _ start _ => start
  | specs _ _ keywordPos _ _ _ => keywordPos

def stop : Decl → Pos
  | bad _ _ stop => stop
  | specs _ keyword keywordPos lparen entries rparen =>
    if lparen.isValid then rparen.advance 1
    else
      match entries.head? with
      | some spec => spec.stop
      | none => keywordPos.advance keyword.spelling.utf8ByteSize

def span (d : Decl) : Span := ⟨d.pos, d.stop⟩

end Decl

inductive Stmt where
  | bad (id : NodeId) (start stop : Pos)
  | decl (id : NodeId) (decl : Decl)
  | empty (id : NodeId) (semi : Pos) (implicit : Bool)
  | expr (id : NodeId) (expr : Expr)
  | incDec (id : NodeId) (expr : Expr) (opPos : Pos) (increment : Bool)
  | assign (id : NodeId) (left : List Expr) (op : AssignOp) (opPos : Pos) (right : List Expr)
  deriving DecidableEq, Repr, Inhabited

namespace Stmt

def id : Stmt → NodeId
  | bad id .. | decl id .. | empty id .. | expr id .. | incDec id .. | assign id .. => id

def isBad : Stmt → Bool
  | bad .. => true
  | _ => false

def pos : Stmt → Pos
  | bad _ start _ => start
  | decl _ d => d.pos
  | empty _ semi _ => semi
  | expr _ e => e.pos
  | incDec _ e _ _ => e.pos
  | assign _ left _ opPos _ =>
    match left.head? with
    | some e => e.pos
    | none => opPos

def stop : Stmt → Pos
  | bad _ _ stop => stop
  | decl _ d => d.stop
  | empty _ semi implicit => if implicit then semi else semi.advance 1
  | expr _ e => e.stop
  | incDec _ _ opPos _ => opPos.advance 2
  | assign _ _ op opPos right =>
    match right.getLast? with
    | some e => e.stop
    | none => opPos.advance op.spelling.utf8ByteSize

def span (s : Stmt) : Span := ⟨s.pos, s.stop⟩

end Stmt

/-- The outermost expressions of a spec: its type, then its values. -/
def Spec.exprs (s : Spec) : List Expr := s.type.toList ++ s.values

def Decl.exprs : Decl → List Expr
  | .bad .. => []
  | .specs _ _ _ _ entries _ => entries.flatMap Spec.exprs

/-- The outermost expressions of a statement in source order. -/
def Stmt.exprs : Stmt → List Expr
  | .bad .. | .empty .. => []
  | .decl _ d => d.exprs
  | .expr _ e | .incDec _ e _ _ => [e]
  | .assign _ left _ _ right => left ++ right

structure File where
  stmts : List Stmt
  unresolved : List Ident
  deriving DecidableEq, Repr, Inhabited

namespace File

def pos (f : File) : Pos :=
  match f.stmts.head? with
  | some s => s.pos
  | none => .none

def stop (f : File) : Pos :=
  match f.stmts.getLast? with
  | some s => s.stop
  | none => .none

def span (f : File) : Span := ⟨f.pos, f.stop⟩

end File

end RoseLang
