import RoseLang.Syntax.Stmt

/-!
# Grouping by precedence

When a tree of binary operators agrees with the precedences: what stands to the left of an operator
binds at least as tightly as it does, what stands to the right more tightly, and exponentiation, which
groups to the right, has it the other way round. Parentheses stop the comparison.
-/

namespace RoseLang

namespace Expr

/-- The operator of a binary expression that stands without parentheses. -/
def binaryOp? : Expr → Option BinaryOp
  | binary _ op .. => some op
  | _ => none

end Expr

namespace BinaryOp

/-- Whether `e` may be the left operand of `op` without parentheses. -/
def AdmitsLeft (op : BinaryOp) (e : Expr) : Prop :=
  ∀ inner, e.binaryOp? = some inner → op.precedence ≤ inner.precedence ∧ op ≠ .exp

/-- Whether `e` may be the right operand of `op` without parentheses. -/
def AdmitsRight (op : BinaryOp) (e : Expr) : Prop :=
  ∀ inner, e.binaryOp? = some inner →
    if op = .exp then op.precedence ≤ inner.precedence else op.precedence < inner.precedence

theorem admitsLeft_of_none {op : BinaryOp} {e : Expr} (h : e.binaryOp? = none) : op.AdmitsLeft e := by
  intro inner hinner
  rw [h] at hinner
  cases hinner

theorem admitsRight_of_none {op : BinaryOp} {e : Expr} (h : e.binaryOp? = none) : op.AdmitsRight e := by
  intro inner hinner
  rw [h] at hinner
  cases hinner

theorem rightFloor_le_iff {op : BinaryOp} {n : Nat} :
    op.rightFloor ≤ n ↔ if op = .exp then op.precedence ≤ n else op.precedence < n := by
  cases op <;> rfl

theorem admitsRight_iff {op : BinaryOp} {e : Expr} :
    op.AdmitsRight e ↔ ∀ inner, e.binaryOp? = some inner → op.rightFloor ≤ inner.precedence := by
  simp only [AdmitsRight, rightFloor_le_iff]

theorem rightFloor_le_exp (op : BinaryOp) : op.rightFloor ≤ exp.precedence := by cases op <;> decide

theorem rightFloor_le_succ (op : BinaryOp) : op.rightFloor ≤ op.precedence + 1 := by cases op <;> decide

theorem precedence_le_rightFloor (op : BinaryOp) : op.precedence ≤ op.rightFloor := by
  cases op <;> decide

theorem precedence_pos (op : BinaryOp) : 1 ≤ op.precedence := by cases op <;> decide

/-- The operator after a right operand takes the whole expression so far as its left operand. -/
theorem admitsLeft_of_lt {op inner : BinaryOp} {e : Expr} (he : e.binaryOp? = some inner)
    (h : op.precedence < inner.rightFloor) : op.AdmitsLeft e := by
  intro other hother
  obtain rfl := Option.some.inj (he.symm.trans hother)
  have hsucc := inner.rightFloor_le_succ
  have hexp := inner.rightFloor_le_exp
  refine ⟨by omega, ?_⟩
  rintro rfl
  omega

/-- An operator that admits a binary expression on its left is not tight enough for that expression's
right operand. -/
theorem lt_rightFloor_of_admitsLeft {op inner : BinaryOp} {e : Expr} (he : e.binaryOp? = some inner)
    (h : op.AdmitsLeft e) : op.precedence < inner.rightFloor := by
  obtain ⟨hle, hne⟩ := h inner he
  have hlt := rightFloor_le_iff.mp (Nat.le_refl inner.rightFloor)
  split at hlt
  · next hexp =>
    subst hexp
    have : op.precedence < exp.precedence := by cases op <;> first | decide | contradiction
    omega
  · omega

/-- The operator that follows a binary expression admits its right operand, and ends the chain in which that
operand is read. -/
theorem admitsLeft_right {op outer : BinaryOp} {id : NodeId} {opPos : Pos} {left right : Expr}
    (h : outer.AdmitsLeft (.binary id op opPos left right)) (hright : op.AdmitsRight right) :
    outer.AdmitsLeft right ∧ outer.precedence < op.rightFloor := by
  obtain ⟨hle, hne⟩ := h op rfl
  refine ⟨fun inner hinner => ⟨?_, hne⟩, lt_rightFloor_of_admitsLeft rfl h⟩
  have hinnerFloor := admitsRight_iff.mp hright inner hinner
  have hfloor := op.precedence_le_rightFloor
  omega

end BinaryOp

/-- Every operator in the tree admits its operands, and no unary operator stands before a binary
expression without parentheses. -/
def Expr.Grouped : Expr → Prop
  | bad .. | ident .. | literal .. => True
  | paren _ _ inner _ => inner.Grouped
  | unary _ _ _ operand => operand.binaryOp? = none ∧ operand.Grouped
  | binary _ op _ left right =>
    op.AdmitsLeft left ∧ op.AdmitsRight right ∧ left.Grouped ∧ right.Grouped

/-- Every operator outside parentheses has at least the given precedence. Where a grouped tree is
concerned, this is a matter of the outermost one. -/
def Expr.BindsAtLeast (floor : Nat) (e : Expr) : Prop := ∀ op, e.binaryOp? = some op → floor ≤ op.precedence

theorem Expr.bindsAtLeast_of_none {floor : Nat} {e : Expr} (h : e.binaryOp? = none) :
    e.BindsAtLeast floor := by
  intro op hop
  rw [h] at hop
  cases hop

end RoseLang
