import Mathlib.Tactic.Ring
import RoseLang.Proofs.Syntax.Shape

/-!
# The height of a tree

`Expr.levels` counts the levels that an expression needs while it is read, `Expr.height` the nodes that lie on
top of each other once it has been read. The two differ because the left operand of a chain is read before the
levels of the operators are entered that end up above it.
-/

namespace RoseLang.Expr

/-- The greatest number of parentheses, unary and binary operators on a path from the root to a leaf. -/
def height : Expr → Nat
  | bad .. | ident .. | literal .. => 0
  | paren _ _ inner _ => inner.height + 1
  | unary _ _ _ operand => operand.height + 1
  | binary _ _ _ left right => max left.height right.height + 1

/-- At every binary operator the right operand is at least as high as the left one. -/
def LeansRight : Expr → Prop
  | bad .. | ident .. | literal .. => True
  | paren _ _ inner _ => inner.LeansRight
  | unary _ _ _ operand => operand.LeansRight
  | binary _ _ _ left right => left.height ≤ right.height ∧ left.LeansRight ∧ right.LeansRight

theorem spine_le_levels (e : Expr) : e.spine ≤ e.levels := by
  cases e with
  | binary id op opPos left right =>
    rw [spine, levels]
    omega
  | _ => exact Nat.zero_le _

/-- Each node on the way down to the right takes a level of its own. -/
theorem height_le_levels {e : Expr} (h : e.LeansRight) : e.height ≤ e.levels := by
  induction e with
  | bad | ident | literal => exact Nat.le_refl 0
  | paren id lparen inner rparen ih => exact Nat.succ_le_succ (ih h)
  | unary id op opPos operand ih => exact Nat.succ_le_succ (ih h)
  | binary id op opPos left right _ ihright =>
    obtain ⟨hle, -, hright⟩ := h
    have hlevels := ihright hright
    rw [height, levels]
    omega

/-- What is one level further down may be as high as all chains of that many levels together. -/
private theorem two_mul_succ_height_le {e : Expr} (h : 2 * e.height ≤ e.levels * (e.levels + 1) + 2 * e.spine) :
    2 * (e.height + 1) ≤ (e.levels + 1) * (e.levels + 2) := by
  have hle := e.spine_le_levels
  calc 2 * (e.height + 1)
    _ ≤ e.levels * (e.levels + 1) + 2 * e.levels + 2 := by omega
    _ = (e.levels + 1) * (e.levels + 2) := by ring

/-- A chain has its own operators above its first operand, which may need all the levels again. -/
theorem two_mul_height_le_spine (e : Expr) : 2 * e.height ≤ e.levels * (e.levels + 1) + 2 * e.spine := by
  induction e with
  | bad | ident | literal => exact Nat.zero_le _
  | paren id lparen inner rparen ih => exact two_mul_succ_height_le ih
  | unary id op opPos operand ih => exact two_mul_succ_height_le ih
  | binary id op opPos left right ihleft ihright =>
    rw [height, levels, spine]
    generalize hlevels : max left.levels (left.spine + 1 + right.levels) = n
    have hleft : left.levels * (left.levels + 1) ≤ n * (n + 1) := Nat.mul_le_mul (by omega) (by omega)
    have hright : (right.levels + 1) * (right.levels + 2) ≤ n * (n + 1) :=
      Nat.mul_le_mul (by omega) (by omega)
    have hstep := two_mul_succ_height_le ihright
    omega

theorem two_mul_height_le (e : Expr) : 2 * e.height ≤ e.levels * (e.levels + 3) := by
  have hle := e.spine_le_levels
  calc 2 * e.height
    _ ≤ e.levels * (e.levels + 1) + 2 * e.spine := e.two_mul_height_le_spine
    _ ≤ e.levels * (e.levels + 1) + 2 * e.levels := by omega
    _ = e.levels * (e.levels + 3) := by ring

end RoseLang.Expr
