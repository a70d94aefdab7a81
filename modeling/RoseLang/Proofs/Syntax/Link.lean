import RoseLang.Proofs.Syntax.Grouping
import RoseLang.Proofs.Syntax.Marks
import RoseLang.Proofs.Syntax.Shape

/-!
# Reading a chain from left to right

A chain of operands and binary operators makes a tree operand by operand: `link` adds the next operator
and its operand as deep on the right spine as the precedences ask. Every grouped tree comes about in
this way, since an operator that is added below another one is added to the right operand alone.
-/

namespace RoseLang.Expr

/-- The tree of a chain that goes on with one more operator and operand. -/
def link (e : Expr) (id : NodeId) (op : BinaryOp) (opPos : Pos) (operand : Expr) : Expr :=
  match e with
  | binary outerId outer outerPos left right =>
    if outer.rightFloor ≤ op.precedence then
      .binary outerId outer outerPos left (right.link id op opPos operand)
    else .binary id op opPos e operand
  | _ => .binary id op opPos e operand

-- The equations that the lemmas below rewrite with are made here, once.
attribute [local simp] link marks

variable {id outerId : NodeId} {op outer : BinaryOp} {opPos outerPos : Pos}
  {operand left right e : Expr}

theorem link_binary (h : outer.rightFloor ≤ op.precedence) :
    (binary outerId outer outerPos left right).link id op opPos operand =
      binary outerId outer outerPos left (right.link id op opPos operand) := by
  rw [link, if_pos h]

theorem link_of_lt (h : ∀ outer, e.binaryOp? = some outer → op.precedence < outer.rightFloor) :
    e.link id op opPos operand = binary id op opPos e operand := by
  cases e with
  | binary outerId outer outerPos left right =>
    have hlt : op.precedence < outer.rightFloor := h outer rfl
    rw [link, if_neg (by omega)]
  | _ => rfl

theorem binaryOp?_link :
    (e.link id op opPos operand).binaryOp? = some op ∨
      (e.link id op opPos operand).binaryOp? = e.binaryOp? := by
  cases e with
  | binary outerId outer outerPos left right =>
    rw [link]
    split
    · exact .inr rfl
    · exact .inl rfl
  | _ => exact .inl rfl

theorem link_marks :
    (e.link id op opPos operand).marks = e.marks ++ .placed op.token opPos :: operand.marks := by
  induction e with
  | binary outerId outer outerPos left right ihleft ihright =>
    rw [link]
    split
    · simp [ihright]
    · rfl
  | _ => rfl

theorem link_complete (he : e.Complete) (hoperand : operand.Complete) :
    (e.link id op opPos operand).Complete := by
  induction e with
  | binary outerId outer outerPos left right ihleft ihright =>
    rw [link]
    split
    · exact ⟨he.1, ihright he.2⟩
    · exact ⟨he, hoperand⟩
  | _ => exact ⟨he, hoperand⟩

theorem link_grouped (he : e.Grouped) (hoperand : operand.Grouped) (hnone : operand.binaryOp? = none) :
    (e.link id op opPos operand).Grouped := by
  induction e with
  | binary outerId outer outerPos left right ihleft ihright =>
    obtain ⟨hleft, hright, hl, hr⟩ := he
    by_cases hle : outer.rightFloor ≤ op.precedence
    · rw [link_binary hle]
      refine ⟨hleft, BinaryOp.admitsRight_iff.mpr fun inner hinner => ?_, hl, ihright hr⟩
      obtain hop | hsame : (right.link id op opPos operand).binaryOp? = some op ∨
          (right.link id op opPos operand).binaryOp? = right.binaryOp? := binaryOp?_link
      · rw [hop] at hinner
        cases hinner
        exact hle
      · rw [hsame] at hinner
        exact BinaryOp.admitsRight_iff.mp hright inner hinner
    · rw [link, if_neg hle]
      exact ⟨BinaryOp.admitsLeft_of_lt rfl (by omega), BinaryOp.admitsRight_of_none hnone,
        ⟨hleft, hright, hl, hr⟩, hoperand⟩
  | _ =>
    exact ⟨BinaryOp.admitsLeft_of_none rfl, BinaryOp.admitsRight_of_none hnone, he, hoperand⟩

/-- An operator that admits a longer chain on its right admits every shorter one, and each operator of
the chain is added below it. -/
theorem admitsRight_of_link (h : outer.AdmitsRight (e.link id op opPos operand)) :
    outer.rightFloor ≤ op.precedence ∧ outer.AdmitsRight e := by
  rw [BinaryOp.admitsRight_iff] at h ⊢
  by_cases hstop : ∀ inner, e.binaryOp? = some inner → op.precedence < inner.rightFloor
  · rw [link_of_lt hstop] at h
    have hle : outer.rightFloor ≤ op.precedence := h op rfl
    refine ⟨hle, fun inner hinner => ?_⟩
    have hinner_le := (BinaryOp.admitsLeft_of_lt hinner (hstop inner hinner) inner hinner).1
    omega
  · obtain ⟨inner, hinner, hle⟩ : ∃ inner, e.binaryOp? = some inner ∧ inner.rightFloor ≤ op.precedence := by
      simpa using hstop
    cases e with
    | binary innerId inner' innerPos left right =>
      cases hinner
      rw [link_binary hle] at h
      have hfloor : outer.rightFloor ≤ inner.precedence := h inner rfl
      have := inner.precedence_le_rightFloor
      refine ⟨by omega, fun other hother => ?_⟩
      cases hother
      exact hfloor
    | _ => cases hinner

end RoseLang.Expr
