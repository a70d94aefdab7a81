import RoseLang.Token.Kind

/-!
# Operators, literal kinds and declaration keywords

The alternatives that a syntax tree distinguishes, each tied to the kind of token that writes it:
`token` gives that kind, and `ofToken?` reads it back. Some signs write both a unary and a binary
operator.
-/

namespace RoseLang

inductive LiteralKind where
  | int
  | float
  | char
  | string
  | rawString
  deriving DecidableEq, Repr, Inhabited

namespace LiteralKind

def token : LiteralKind → Kind
  | int => .int
  | float => .float
  | char => .char
  | string => .string
  | rawString => .rawString

def ofToken? : Kind → Option LiteralKind
  | .int => some int
  | .float => some float
  | .char => some char
  | .string => some string
  | .rawString => some rawString
  | _ => none

@[simp] theorem ofToken?_token (k : LiteralKind) : ofToken? k.token = some k := by cases k <;> rfl

theorem token_of_ofToken? {k : Kind} {l : LiteralKind} (h : ofToken? k = some l) : l.token = k := by
  cases k <;> cases h <;> rfl

end LiteralKind

inductive BinaryOp where
  | logicalOr
  | logicalAnd
  | eq
  | ne
  | lt
  | le
  | gt
  | ge
  | add
  | sub
  | bitOr
  | bitXor
  | mul
  | div
  | rem
  | shl
  | shr
  | bitAnd
  | bitAndNot
  | exp
  deriving DecidableEq, Repr, Inhabited

namespace BinaryOp

def token : BinaryOp → Kind
  | logicalOr => .logicalOr
  | logicalAnd => .logicalAnd
  | eq => .eql
  | ne => .notEql
  | lt => .less
  | le => .lessEql
  | gt => .greater
  | ge => .greaterEql
  | add => .add
  | sub => .sub
  | bitOr => .or
  | bitXor => .xor
  | mul => .mul
  | div => .quo
  | rem => .rem
  | shl => .shl
  | shr => .shr
  | bitAnd => .and
  | bitAndNot => .andNot
  | exp => .exp

def ofToken? : Kind → Option BinaryOp
  | .logicalOr => some logicalOr
  | .logicalAnd => some logicalAnd
  | .eql => some eq
  | .notEql => some ne
  | .less => some lt
  | .lessEql => some le
  | .greater => some gt
  | .greaterEql => some ge
  | .add => some add
  | .sub => some sub
  | .or => some bitOr
  | .xor => some bitXor
  | .mul => some mul
  | .quo => some div
  | .rem => some rem
  | .shl => some shl
  | .shr => some shr
  | .and => some bitAnd
  | .andNot => some bitAndNot
  | .exp => some exp
  | _ => none

def spelling (op : BinaryOp) : String := op.token.spelling

def precedence (op : BinaryOp) : Nat := op.token.precedence

/-- The least precedence of an operator inside the right operand: the operator's own if it groups to
the right, else one more. -/
def rightFloor (op : BinaryOp) : Nat :=
  if op.token.isRightAssociative then op.precedence else op.precedence + 1

@[simp] theorem ofToken?_token (op : BinaryOp) : ofToken? op.token = some op := by cases op <;> rfl

theorem token_of_ofToken? {k : Kind} {op : BinaryOp} (h : ofToken? k = some op) : op.token = k := by
  cases k <;> cases h <;> rfl

theorem ofToken?_isSome_iff (k : Kind) : (ofToken? k).isSome = true ↔ 0 < k.precedence := by
  cases k <;> decide

end BinaryOp

inductive UnaryOp where
  | plus
  | neg
  | not
  | invert
  | ref
  deriving DecidableEq, Repr, Inhabited

namespace UnaryOp

def token : UnaryOp → Kind
  | plus => .add
  | neg => .sub
  | not => .not
  | invert => .invert
  | ref => .and

def ofToken? : Kind → Option UnaryOp
  | .add => some plus
  | .sub => some neg
  | .not => some not
  | .invert => some invert
  | .and => some ref
  | _ => none

def spelling (op : UnaryOp) : String := op.token.spelling

@[simp] theorem ofToken?_token (op : UnaryOp) : ofToken? op.token = some op := by cases op <;> rfl

theorem token_of_ofToken? {k : Kind} {op : UnaryOp} (h : ofToken? k = some op) : op.token = k := by
  cases k <;> cases h <;> rfl

end UnaryOp

inductive AssignOp where
  | assign
  | add
  | sub
  | mul
  | div
  | rem
  | exp
  | bitAnd
  | bitOr
  | bitXor
  | shl
  | shr
  | bitAndNot
  deriving DecidableEq, Repr, Inhabited

namespace AssignOp

def token : AssignOp → Kind
  | assign => .assign
  | add => .addAssign
  | sub => .subAssign
  | mul => .mulAssign
  | div => .quoAssign
  | rem => .remAssign
  | exp => .expAssign
  | bitAnd => .andAssign
  | bitOr => .orAssign
  | bitXor => .xorAssign
  | shl => .shlAssign
  | shr => .shrAssign
  | bitAndNot => .andNotAssign

def ofToken? : Kind → Option AssignOp
  | .assign => some assign
  | .addAssign => some add
  | .subAssign => some sub
  | .mulAssign => some mul
  | .quoAssign => some div
  | .remAssign => some rem
  | .expAssign => some exp
  | .andAssign => some bitAnd
  | .orAssign => some bitOr
  | .xorAssign => some bitXor
  | .shlAssign => some shl
  | .shrAssign => some shr
  | .andNotAssign => some bitAndNot
  | _ => none

def spelling (op : AssignOp) : String := op.token.spelling

@[simp] theorem ofToken?_token (op : AssignOp) : ofToken? op.token = some op := by cases op <;> rfl

theorem token_of_ofToken? {k : Kind} {op : AssignOp} (h : ofToken? k = some op) : op.token = k := by
  cases k <;> cases h <;> rfl

theorem ofToken?_isSome_iff (k : Kind) : (ofToken? k).isSome = true ↔ k.isAssignOperator = true := by
  cases k <;> decide

end AssignOp

/-- The keyword of a declaration. -/
inductive DeclKeyword where
  | constWord
  | letWord
  | varWord
  deriving DecidableEq, Repr, Inhabited

namespace DeclKeyword

def token : DeclKeyword → Kind
  | constWord => .constWord
  | letWord => .letWord
  | varWord => .varWord

def ofToken? : Kind → Option DeclKeyword
  | .constWord => some constWord
  | .letWord => some letWord
  | .varWord => some varWord
  | _ => none

def spelling (k : DeclKeyword) : String := k.token.spelling

@[simp] theorem ofToken?_token (k : DeclKeyword) : ofToken? k.token = some k := by cases k <;> rfl

theorem token_of_ofToken? {k : Kind} {w : DeclKeyword} (h : ofToken? k = some w) : w.token = k := by
  cases k <;> cases h <;> rfl

end DeclKeyword

end RoseLang
