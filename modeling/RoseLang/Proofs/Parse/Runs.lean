import RoseLang.Proofs.Parse.Files

/-!
# Runs of the parsers for expressions and types

`Runs` lists what the parsers for operands and chains do when they come to their end, one constructor for each
way, and `TypeRuns` does for types. The equations of the parsers are used here once, to show that there are no
other ways; a property of all expressions that are read is then an induction on the run.
-/

namespace RoseLang.Parse

theorem State.Terminated.inside {s : State} (hs : s.Terminated) : s.inside.Terminated :=
  (Extends.next { s with depth := s.depth + 1 }).terminated hs

/-- What of an expression is read: an operand with the unary operators before it, the rest of a chain that starts
with `left`, or one after the other. -/
inductive Part where
  | unary (lhs : Bool)
  | chain (lhs : Bool) (floor : Nat) (left : Expr)
  | operand (lhs : Bool) (floor : Nat)

def Part.parser (room : Nat) : Part → Parser Expr
  | unary lhs => Parse.unary room lhs
  | chain lhs floor left => Parse.chain room lhs floor left
  | operand lhs floor => keepDepth do
    let first ← Parse.unary room lhs
    Parse.chain room lhs floor first

/-- With `room` levels left the part is read from `s` to `s'`, and `e` made of it. -/
inductive Runs : Nat → Part → State → Expr → State → Prop where
  | literal {room : Nat} {lhs : Bool} {s : State} {kind : LiteralKind}
      (hkind : LiteralKind.ofToken? s.token.kind = some kind) :
      Runs room (.unary lhs) s (.literal s.next.nextId ⟨s.token.pos, kind, s.token.text⟩)
        { s.next with nextId := s.next.nextId + 1 }
  | name {room : Nat} {lhs : Bool} {s t s' : State} {i : Ident} {e : Expr} (hkind : s.token.kind = .ident)
      (hname : ident s = .ok i t)
      (hresolve : resolveIf (!lhs) (.ident t.nextId i) { t with nextId := t.nextId + 1 } = .ok e s') :
      Runs room (.unary lhs) s e s'
  | missing {room : Nat} {lhs : Bool} {s s' : State} {e : Expr} (hop : UnaryOp.ofToken? s.token.kind = none)
      (hlparen : s.token.kind ≠ .lparen) (hliteral : LiteralKind.ofToken? s.token.kind = none)
      (hident : s.token.kind ≠ .ident)
      (hskipped : skippedExpr statementStarts (expected .operand) s = .ok e s') : Runs room (.unary lhs) s e s'
  | tooDeep {lhs : Bool} {s s' : State} {e : Expr}
      (hopens : s.token.kind = .lparen ∨ ∃ op, UnaryOp.ofToken? s.token.kind = some op)
      (hskipped : Parse.tooDeep s = .ok e s') : Runs 0 (.unary lhs) s e s'
  | sign {room : Nat} {lhs : Bool} {s t : State} {op : UnaryOp} {operand : Expr}
      (hop : UnaryOp.ofToken? s.token.kind = some op)
      (hoperand : Runs room (.unary false) s.inside operand t) :
      Runs (room + 1) (.unary lhs) s (.unary t.nextId op s.token.pos operand)
        { t with depth := t.depth - 1, nextId := t.nextId + 1 }
  | paren {room : Nat} {lhs : Bool} {s t u : State} {inner : Expr} {rparen : Pos} (hlparen : s.token.kind = .lparen)
      (hinner : Runs room (.operand false 1) { s.inside with inRhs := true } inner t)
      (hrparen : expect .rparen { t with inRhs := s.inside.inRhs, depth := t.depth - 1 } = .ok rparen u) :
      Runs (room + 1) (.unary lhs) s (.paren u.nextId s.token.pos inner rparen) { u with nextId := u.nextId + 1 }
  | stop {room floor : Nat} {lhs : Bool} {s : State} {left : Expr}
      (hstop : ∀ op, s.binaryOp? = some op → op.precedence < floor) :
      Runs room (.chain lhs floor left) s left s
  | noRoom {floor : Nat} {lhs : Bool} {s t u v : State} {op : BinaryOp} {opPos : Pos} {left left' right : Expr}
      (hop : s.binaryOp? = some op) (hfloor : floor ≤ op.precedence) (hexpect : expect op.token s = .ok opPos t)
      (hresolve : resolveIf lhs left t = .ok left' u) (hskipped : Parse.tooDeep u = .ok right v) :
      Runs 0 (.chain lhs floor left) s (.binary v.nextId op opPos left' right) { v with nextId := v.nextId + 1 }
  | operator {room floor : Nat} {lhs : Bool} {s t u v s' : State} {op : BinaryOp} {opPos : Pos}
      {left left' right e : Expr} (hop : s.binaryOp? = some op) (hfloor : floor ≤ op.precedence)
      (hexpect : expect op.token s = .ok opPos t) (hresolve : resolveIf lhs left t = .ok left' u)
      (hright : Runs room (.operand false op.rightFloor) { u with depth := u.depth + 1 } right v)
      (hrest : Runs room (.chain false floor (.binary v.nextId op opPos left' right))
        { v with nextId := v.nextId + 1 } e s') :
      Runs (room + 1) (.chain lhs floor left) s e s'
  | operand {room floor : Nat} {lhs : Bool} {s t u : State} {first e : Expr}
      (hfirst : Runs room (.unary lhs) s first t) (hrest : Runs room (.chain lhs floor first) t e u) :
      Runs room (.operand lhs floor) s e { u with depth := s.depth }

variable {room : Nat} {part : Part} {lhs : Bool} {s s' : State} {e : Expr}

theorem Runs.of_leaf (hop : UnaryOp.ofToken? s.token.kind = none) (hlparen : s.token.kind ≠ .lparen)
    (h : leaf lhs s = .ok e s') : Runs room (.unary lhs) s e s' := by
  cases hliteral : LiteralKind.ofToken? s.token.kind with
  | some kind =>
    rw [leaf_of_literal hliteral] at h
    cases h
    exact .literal hliteral
  | none =>
    by_cases hident : s.token.kind = .ident
    · rw [leaf_of_ident hident] at h
      obtain ⟨i, t, hname, h⟩ := bind_eq_ok.mp h
      exact .name hident hname h
    · rw [leaf_of_other hliteral hident] at h
      exact .missing hop hlparen hliteral hident h

/-- The runs with `room` levels left are among those listed. -/
private def Listed (room : Nat) (part : Part) : Prop :=
  ∀ s e s', part.parser room s = .ok e s' → Runs room part s e s'

/-- The rest of a run behind the operator that the chain may take. -/
private theorem listed_chain {floor : Nat} {left : Expr}
    (hgo : ∀ op s e s', s.binaryOp? = some op → floor ≤ op.precedence → chain room lhs floor left s = .ok e s' →
      Runs room (.chain lhs floor left) s e s') : Listed room (.chain lhs floor left) := by
  intro s e s' h
  by_cases hop : ∃ op, s.binaryOp? = some op ∧ floor ≤ op.precedence
  · obtain ⟨op, hop, hfloor⟩ := hop
    exact hgo op s e s' hop hfloor h
  · have hstop : ∀ op, s.binaryOp? = some op → op.precedence < floor :=
      fun op hsome => Nat.lt_of_not_le fun hle => hop ⟨op, hsome, hle⟩
    have hend : chain room lhs floor left s = .ok e s' := h
    rw [chain_of_stop hstop] at hend
    cases hend
    exact .stop hstop

private theorem listed_operand (hunary : ∀ lhs, Listed room (.unary lhs))
    (hchain : ∀ lhs floor left, Listed room (.chain lhs floor left)) (lhs : Bool) (floor : Nat) :
    Listed room (.operand lhs floor) := by
  intro s e s' h
  obtain ⟨u, hrun, rfl⟩ := keepDepth_eq_ok.mp h
  obtain ⟨first, t, hfirst, hrest⟩ := bind_eq_ok.mp hrun
  exact .operand (hunary _ _ _ _ hfirst) (hchain _ _ _ _ _ _ hrest)

private theorem listed_unary_zero (lhs : Bool) : Listed 0 (.unary lhs) := by
  intro s e s' (h : unary 0 lhs s = .ok e s')
  cases hop : UnaryOp.ofToken? s.token.kind with
  | some op =>
    rw [unary_zero_of_op hop] at h
    exact .tooDeep (.inr ⟨op, hop⟩) h
  | none =>
    by_cases hlparen : s.token.kind = .lparen
    · rw [unary_zero_of_lparen hlparen] at h
      exact .tooDeep (.inl hlparen) h
    · rw [unary_of_leaf hop hlparen] at h
      exact .of_leaf hop hlparen h

private theorem listed_unary_succ (hunary : ∀ lhs, Listed room (.unary lhs))
    (hoperand : ∀ lhs floor, Listed room (.operand lhs floor)) (lhs : Bool) : Listed (room + 1) (.unary lhs) := by
  intro s e s' (h : unary (room + 1) lhs s = .ok e s')
  cases hop : UnaryOp.ofToken? s.token.kind with
  | some op =>
    rw [unary_succ_of_op hop] at h
    obtain ⟨operand, t, hrun, h⟩ := bind_eq_ok.mp h
    cases h
    exact .sign hop (hunary _ _ _ _ hrun)
  | none =>
    by_cases hlparen : s.token.kind = .lparen
    · rw [unary_succ_of_lparen hlparen] at h
      obtain ⟨inner, t, hinner, h⟩ := bind_eq_ok.mp h
      rw [leave_bind] at h
      obtain ⟨rparen, u, hrparen, h⟩ := bind_eq_ok.mp h
      cases h
      obtain ⟨v, hrun, rfl⟩ := withRhs_eq_ok.mp hinner
      exact .paren hlparen (hoperand _ _ _ _ _ hrun) hrparen
    · rw [unary_of_leaf hop hlparen] at h
      exact .of_leaf hop hlparen h

private theorem listed_chain_zero (lhs : Bool) (floor : Nat) (left : Expr) : Listed 0 (.chain lhs floor left) := by
  refine listed_chain fun op s e s' hop hfloor h => ?_
  rw [chain_zero hop hfloor] at h
  obtain ⟨opPos, t, hexpect, h⟩ := bind_eq_ok.mp h
  obtain ⟨left', u, hresolve, h⟩ := bind_eq_ok.mp h
  obtain ⟨right, v, hskipped, h⟩ := bind_eq_ok.mp h
  cases h
  exact .noRoom hop hfloor hexpect hresolve hskipped

private theorem listed_chain_succ (hchain : ∀ lhs floor left, Listed room (.chain lhs floor left))
    (hoperand : ∀ lhs floor, Listed room (.operand lhs floor)) (lhs : Bool) (floor : Nat) (left : Expr) :
    Listed (room + 1) (.chain lhs floor left) := by
  refine listed_chain fun op s e s' hop hfloor h => ?_
  rw [chain_succ hop hfloor] at h
  obtain ⟨opPos, t, hexpect, h⟩ := bind_eq_ok.mp h
  obtain ⟨left', u, hresolve, h⟩ := bind_eq_ok.mp h
  rw [enter_bind] at h
  obtain ⟨right, v, hright, h⟩ := bind_eq_ok.mp h
  exact .operator hop hfloor hexpect hresolve (hoperand _ _ _ _ _ hright) (hchain _ _ _ _ _ _ h)

/-- There are no other runs. Operands and chains call each other with less room, so one induction covers all. -/
theorem Runs.of_ok (h : part.parser room s = .ok e s') : Runs room part s e s' := by
  have hall : ∀ room, (∀ lhs, Listed room (.unary lhs)) ∧ ∀ lhs floor left, Listed room (.chain lhs floor left) := by
    intro room
    induction room with
    | zero => exact ⟨listed_unary_zero, listed_chain_zero⟩
    | succ room ih =>
      obtain ⟨hunary, hchain⟩ := ih
      have hoperand := listed_operand hunary hchain
      exact ⟨listed_unary_succ hunary hoperand, listed_chain_succ hchain hoperand⟩
  obtain ⟨hunary, hchain⟩ := hall room
  cases part with
  | unary lhs => exact hunary lhs s e s' h
  | chain lhs floor left => exact hchain lhs floor left s e s' h
  | operand lhs floor => exact listed_operand hunary hchain lhs floor s e s' h

theorem Runs.ok (h : Runs room part s e s') : part.parser room s = .ok e s' := by
  induction h with
  | @literal room lhs s kind hkind =>
    have hop : UnaryOp.ofToken? s.token.kind = none ∧ s.token.kind ≠ .lparen := by
      revert hkind
      generalize s.token.kind = found
      cases found <;> simp [LiteralKind.ofToken?, UnaryOp.ofToken?]
    show unary room lhs s = _
    rw [unary_of_leaf hop.1 hop.2, leaf_of_literal hkind]
  | @name room lhs s t s' i e hkind hname hresolve =>
    show unary room lhs s = _
    rw [unary_of_leaf (by rw [hkind]; rfl) (by rw [hkind]; decide), leaf_of_ident hkind, bind_of_ok hname]
    exact hresolve
  | @missing room lhs s s' e hop hlparen hliteral hident hskipped =>
    show unary room lhs s = _
    rw [unary_of_leaf hop hlparen, leaf_of_other hliteral hident, hskipped]
  | @tooDeep lhs s s' e hopens hskipped =>
    show unary 0 lhs s = _
    rcases hopens with hlparen | ⟨op, hop⟩
    · rw [unary_zero_of_lparen hlparen, hskipped]
    · rw [unary_zero_of_op hop, hskipped]
  | @sign room lhs s t op operand hop _ ih =>
    show unary (room + 1) lhs s = _
    rw [unary_succ_of_op hop]
    exact bind_of_ok ih
  | @paren room lhs s t u inner rparen hlparen _ hrparen ih =>
    show unary (room + 1) lhs s = _
    rw [unary_succ_of_lparen hlparen]
    refine (bind_of_ok (withRhs_eq_ok.mpr ⟨t, ih, rfl⟩)).trans ?_
    rw [leave_bind]
    exact bind_of_ok hrparen
  | @stop room floor lhs s left hstop => exact chain_of_stop hstop
  | @noRoom floor lhs s t u v op opPos left left' right hop hfloor hexpect hresolve hskipped =>
    show chain 0 lhs floor left s = _
    rw [chain_zero hop hfloor, bind_of_ok hexpect, bind_of_ok hresolve, bind_of_ok hskipped]
    rfl
  | @operator room floor lhs s t u v s' op opPos left left' right e hop hfloor hexpect hresolve _ _ ihright ihrest =>
    show chain (room + 1) lhs floor left s = _
    rw [chain_succ hop hfloor, bind_of_ok hexpect, bind_of_ok hresolve, enter_bind]
    exact (bind_of_ok ihright).trans ihrest
  | operand _ _ ihfirst ihrest => exact keepDepth_eq_ok.mpr ⟨_, (bind_of_ok ihfirst).trans ihrest, rfl⟩

theorem runs_iff : Runs room part s e s' ↔ part.parser room s = .ok e s' := ⟨Runs.ok, Runs.of_ok⟩

theorem Part.built (room : Nat) (part : Part) : Built (part.parser room) := by
  cases part with
  | unary lhs => exact .unary room lhs
  | chain lhs floor left => exact .chain room lhs floor left
  | operand lhs floor => exact .operand room lhs floor

theorem Runs.extends (h : Runs room part s e s') : Extends s s' := .of_ok (part.built room) h.ok

theorem expr_runs (h : expr lhs s = .ok e s') : Runs (maxDepth - s.depth) (.operand lhs 1) s e s' := .of_ok h

/-! ### Types -/

/-- With `room` levels left a type is read from `s` to `s'`, and `e` made of it. -/
inductive TypeRuns : Nat → State → Expr → State → Prop where
  | name {room : Nat} {s t : State} {i : Ident} (hkind : s.token.kind = .ident) (hname : ident s = .ok i t) :
      TypeRuns room s (.ident t.nextId i) { t with nextId := t.nextId + 1 }
  | tooDeep {s s' : State} {e : Expr} (hlparen : s.token.kind = .lparen) (hskipped : Parse.tooDeep s = .ok e s') :
      TypeRuns 0 s e s'
  | paren {room : Nat} {s t u : State} {inner : Expr} {rparen : Pos} (hlparen : s.token.kind = .lparen)
      (hinner : TypeRuns room s.inside inner t)
      (hrparen : expect .rparen { t with depth := t.depth - 1 } = .ok rparen u) :
      TypeRuns (room + 1) s (.paren u.nextId s.token.pos inner rparen) { u with nextId := u.nextId + 1 }
  | missing {room : Nat} {s t u : State} {inner : Expr} {rparen : Pos} (hlparen : s.token.kind = .lparen)
      (hstart : s.inside.token.kind ≠ .ident ∧ s.inside.token.kind ≠ .lparen)
      (hskipped : skippedExpr expressionEnds (expected .type) s.inside = .ok inner t)
      (hrparen : expect .rparen { t with depth := t.depth - 1 } = .ok rparen u) :
      TypeRuns (room + 1) s (.paren u.nextId s.token.pos inner rparen) { u with nextId := u.nextId + 1 }

private theorem listed_type {found : Option Expr} (h : bareType? room s = .ok found s')
    (hparen : s.token.kind = .lparen → ∃ type, found = some type ∧ TypeRuns room s type s') :
    (∃ type, found = some type ∧ TypeRuns room s type s') ∨
      found = none ∧ s' = s ∧ s.token.kind ≠ .ident ∧ s.token.kind ≠ .lparen := by
  by_cases hident : s.token.kind = .ident
  · rw [bareType?_of_ident hident] at h
    obtain ⟨i, t, hname, h⟩ := bind_eq_ok.mp h
    cases h
    exact .inl ⟨_, rfl, .name hident hname⟩
  · by_cases hlparen : s.token.kind = .lparen
    · exact .inl (hparen hlparen)
    · rw [bareType?_of_other hident hlparen] at h
      cases h
      exact .inr ⟨rfl, rfl, hident, hlparen⟩

/-- Where a name or a parenthesis starts a type it is read, and else nothing is. -/
theorem bareType?_runs {found : Option Expr} (h : bareType? room s = .ok found s') :
    (∃ type, found = some type ∧ TypeRuns room s type s') ∨
      found = none ∧ s' = s ∧ s.token.kind ≠ .ident ∧ s.token.kind ≠ .lparen := by
  induction room generalizing s s' found with
  | zero =>
    refine listed_type h fun hlparen => ?_
    rw [bareType?_zero_of_lparen hlparen] at h
    obtain ⟨e, t, hskipped, h⟩ := bind_eq_ok.mp h
    cases h
    exact ⟨e, rfl, .tooDeep hlparen hskipped⟩
  | succ room ih =>
    refine listed_type h fun hlparen => ?_
    rw [bareType?_succ_of_lparen hlparen] at h
    obtain ⟨found, t, hfound, h⟩ := bind_eq_ok.mp h
    obtain ⟨inner, u, hinner, h⟩ := bind_eq_ok.mp h
    rw [leave_bind] at h
    obtain ⟨rparen, v, hrparen, h⟩ := bind_eq_ok.mp h
    cases h
    obtain ⟨type, rfl, htype⟩ | ⟨rfl, rfl, hstart⟩ := ih hfound
    · cases hinner
      exact ⟨_, rfl, .paren hlparen htype hrparen⟩
    · exact ⟨_, rfl, .missing hlparen hstart hinner hrparen⟩

theorem TypeRuns.ok (h : TypeRuns room s e s') : bareType? room s = .ok (some e) s' := by
  induction h with
  | name hkind hname =>
    rw [bareType?_of_ident hkind]
    exact bind_of_ok hname
  | tooDeep hlparen hskipped =>
    rw [bareType?_zero_of_lparen hlparen]
    exact bind_of_ok hskipped
  | paren hlparen _ hrparen ih =>
    rw [bareType?_succ_of_lparen hlparen]
    exact (bind_of_ok ih).trans (bind_of_ok hrparen)
  | missing hlparen hstart hskipped hrparen =>
    rw [bareType?_succ_of_lparen hlparen]
    refine (bind_of_ok (bareType?_of_other hstart.1 hstart.2)).trans ?_
    exact (bind_of_ok hskipped).trans (bind_of_ok hrparen)

theorem TypeRuns.kind_ne_eof (h : TypeRuns room s e s') : s.token.kind ≠ .eof := by
  cases h with
  | name hkind => rw [hkind]; decide
  | tooDeep hlparen | paren hlparen | missing hlparen => rw [hlparen]; decide

theorem TypeRuns.extends (h : TypeRuns room s e s') : Extends s s' := .of_ok (.bareType? room) h.ok

/-- The name of a type is looked up when the whole type has been read. -/
theorem type?_runs {found : Option Expr} (h : type? s = .ok found s') :
    (∃ bare t type, found = some type ∧ TypeRuns (maxDepth - s.depth) s bare t ∧ resolveType bare t = .ok type s') ∨
      found = none ∧ s' = s ∧ s.token.kind ≠ .ident ∧ s.token.kind ≠ .lparen := by
  rw [type?, roomLeft_bind] at h
  obtain ⟨bare?, t, hbare, h⟩ := bind_eq_ok.mp h
  obtain ⟨bare, rfl, hruns⟩ | ⟨rfl, hnone⟩ := bareType?_runs hbare
  · obtain ⟨type, u, htype, h⟩ := bind_eq_ok.mp h
    cases h
    exact .inl ⟨bare, t, type, rfl, hruns, htype⟩
  · cases h
    exact .inr ⟨rfl, hnone⟩

end RoseLang.Parse
