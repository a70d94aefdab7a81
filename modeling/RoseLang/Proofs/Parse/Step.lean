import RoseLang.Parse.File

/-!
# Steps of a parse

How a parser runs. `bind_eq_ok` takes a run apart into the runs of its parts, and for each parser there
is one equation for each alternative that it has at the current token.
-/

namespace RoseLang.Parse

variable {α β : Type}

/-! ### Runs -/

theorem bind_eq_ok {p : Parser α} {f : α → Parser β} {s s'' : State} {b : β} :
    (p >>= f) s = .ok b s'' ↔ ∃ a s', p s = .ok a s' ∧ f a s' = .ok b s'' := by
  show EStateM.bind p f s = _ ↔ _
  rw [EStateM.bind]
  cases p s with
  | ok a t =>
    constructor
    · intro h
      exact ⟨a, t, rfl, h⟩
    · rintro ⟨a', t', heq, h⟩
      cases heq
      exact h
  | error e t => simp

theorem bind_eq_error {p : Parser α} {f : α → Parser β} {s s'' : State} {e : Stop} :
    (p >>= f) s = .error e s'' ↔
      p s = .error e s'' ∨ ∃ a s', p s = .ok a s' ∧ f a s' = .error e s'' := by
  show EStateM.bind p f s = _ ↔ _
  rw [EStateM.bind]
  cases p s with
  | ok a t =>
    constructor
    · intro h
      exact .inr ⟨a, t, rfl, h⟩
    · rintro (h | ⟨a', t', heq, h⟩)
      · cases h
      · cases heq
        exact h
  | error e t => simp

theorem bind_of_ok {p : Parser α} {f : α → Parser β} {s s' : State} {a : α} (h : p s = .ok a s') :
    (p >>= f) s = f a s' := by
  show EStateM.bind p f s = _
  rw [EStateM.bind, h]

theorem endState_of_ok {p : Parser α} {s s' : State} {a : α} (h : p s = .ok a s') :
    endState p s = s' := by
  rw [endState, h]

theorem endState_congr {p q : Parser α} {s t : State} (h : p s = q t) : endState p s = endState q t := by
  rw [endState, h, endState]

theorem endState_bind (p : Parser α) (f : α → Parser β) (s : State) :
    endState (p >>= f) s =
      match p s with
      | .ok a s' => endState (f a) s'
      | .error _ s' => s' := by
  show endState (EStateM.bind p f) s = _
  rw [endState, EStateM.bind]
  cases p s with
  | ok a s' => rfl
  | error e s' => rfl

theorem pure_eq_ok {a b : α} {s s' : State} : (pure a : Parser α) s = .ok b s' ↔ a = b ∧ s = s' := by
  show EStateM.Result.ok a s = _ ↔ _
  rw [EStateM.Result.ok.injEq]

/-- The operator that the current token writes, as `Parse.operator?` reads it. -/
def State.binaryOp? (s : State) : Option BinaryOp :=
  BinaryOp.ofToken? (if s.inRhs && s.token.kind = .assign then .eql else s.token.kind)

/-- The state behind the current token, which takes a nesting level. -/
def State.inside (s : State) : State := next { s with depth := s.depth + 1 }

section
variable (f : α → Parser β) (s : State)

@[simp] theorem get_bind (f : State → Parser β) : ((get : Parser State) >>= f) s = f s s := rfl

@[simp] theorem modify_bind (g : State → State) (f : PUnit → Parser β) :
    ((modify g : Parser PUnit) >>= f) s = f ⟨⟩ (g s) := rfl

@[simp] theorem currentToken_bind (f : Token → Parser β) : (currentToken >>= f) s = f s.token s := rfl

@[simp] theorem currentKind_bind (f : Kind → Parser β) : (currentKind >>= f) s = f s.token.kind s := rfl

@[simp] theorem currentPos_bind (f : Pos → Parser β) : (currentPos >>= f) s = f s.token.pos s := rfl

@[simp] theorem next_bind (f : Unit → Parser β) : (next >>= f) s = f () s.next := rfl

@[simp] theorem freshId_bind (f : NodeId → Parser β) :
    (freshId >>= f) s = f s.nextId { s with nextId := s.nextId + 1 } := rfl

@[simp] theorem skipTo_bind (kinds : List Kind) (f : Unit → Parser β) :
    (skipTo kinds >>= f) s = f () (s.skipTo kinds) := rfl

@[simp] theorem enter_bind (f : Unit → Parser β) :
    (enter >>= f) s = f () { s with depth := s.depth + 1 } := rfl

@[simp] theorem leave_bind (f : Unit → Parser β) :
    (leave >>= f) s = f () { s with depth := s.depth - 1 } := rfl

@[simp] theorem roomLeft_bind (f : Nat → Parser β) :
    (roomLeft >>= f) s = f (maxDepth - s.depth) s := rfl

@[simp] theorem operator?_bind (f : Option BinaryOp → Parser β) :
    (operator? >>= f) s = f s.binaryOp? s := rfl

@[simp] theorem resolve_bind (i : Ident) (f : Ident × Option ObjectId → Parser β) :
    (resolve i >>= f) s =
      f ((s.names.resolve i true).1, (s.names.resolve i true).2.1)
        { s with names := (s.names.resolve i true).2.2 } := rfl

end

theorem declare_apply (kind : ObjectKind) (decl : NodeId) (index : Nat) (name : Ident) (s : State) :
    declare kind decl index name s =
      (do
        reportAny ((s.names.declare name kind decl index).2.1.map fun r => (r.pos, .redeclared r))
        return (s.names.declare name kind decl index).1 : Parser Ident)
          { s with names := (s.names.declare name kind decl index).2.2 } := rfl

theorem keepDepth_eq_ok {p : Parser α} {s s'' : State} {a : α} :
    keepDepth p s = .ok a s'' ↔ ∃ s', p s = .ok a s' ∧ s'' = { s' with depth := s.depth } := by
  rw [keepDepth, get_bind, bind_eq_ok]
  constructor
  · rintro ⟨_, s', h, heq⟩
    rw [modify_bind, pure_eq_ok] at heq
    obtain ⟨rfl, rfl⟩ := heq
    exact ⟨s', h, rfl⟩
  · rintro ⟨s', h, rfl⟩
    exact ⟨a, s', h, rfl⟩

theorem withRhs_eq_ok {inRhs : Bool} {p : Parser α} {s s'' : State} {a : α} :
    withRhs inRhs p s = .ok a s'' ↔
      ∃ s', p { s with inRhs } = .ok a s' ∧ s'' = { s' with inRhs := s.inRhs } := by
  rw [withRhs, get_bind, modify_bind, bind_eq_ok]
  constructor
  · rintro ⟨_, s', h, heq⟩
    rw [modify_bind, pure_eq_ok] at heq
    obtain ⟨rfl, rfl⟩ := heq
    exact ⟨s', h, rfl⟩
  · rintro ⟨s', h, rfl⟩
    exact ⟨a, s', h, rfl⟩

/-- A report that returns has kept its fault, or has passed it over for the sake of another one. -/
theorem report_eq_ok {pos : Pos} {fault : Fault} {s s' : State} (h : report pos fault s = .ok () s') :
    s' = s.keep ⟨pos, fault⟩ ∨ s' = s ∧ s.findings ≠ [] := by
  rw [report, get_bind] at h
  split at h
  · cases h
    exact .inl rfl
  · split at h
    · next hline =>
      cases h
      refine .inr ⟨rfl, fun hnone => ?_⟩
      simp [State.repeatsLine, hnone] at hline
    · split at h
      · cases h
      · cases h
        exact .inl rfl

/-- Recovery stops where it stopped last, as often as it may, or behind that place. -/
theorem State.stop?_eq_some {kinds : List Kind} {s s' : State} (h : s.stop? kinds = some s') :
    s.token.kind ∈ kinds ∧
      (s.token.pos = s.syncPos ∧ s.syncCount < maxRetries ∧ s' = { s with syncCount := s.syncCount + 1 } ∨
        s.syncPos.index < s.token.pos.index ∧ s' = { s with syncPos := s.token.pos, syncCount := 0 }) := by
  rw [stop?] at h
  split at h
  · next hkind =>
    refine ⟨List.contains_iff_mem.mp hkind, ?_⟩
    split at h
    · next hsame => exact .inl ⟨hsame.1, hsame.2, (Option.some.inj h).symm⟩
    · split at h
      · next hlater => exact .inr ⟨hlater, (Option.some.inj h).symm⟩
      · cases h
  · cases h

/-! ### Lists

The lists of names and those of expressions are read in one way, whatever reads an item. -/

/-- Further items after commas, at most `n`. -/
def commaLoop (item : Parser α) : Nat → Parser (List α)
  | 0 => return []
  | n + 1 => do
    if (← currentKind) = .comma then
      next
      let a ← item
      return a :: (← commaLoop item n)
    else return []

/-- Items with commas between them: the first one and the others. -/
def commaList (item : Parser α) : Parser (α × List α) := do
  let first ← item
  let others ← commaLoop item (← get).rest.length
  return (first, others)

theorem moreNames_eq (n : Nat) : moreNames n = commaLoop ident n := by
  induction n with
  | zero => rfl
  | succ n ih => rw [moreNames, commaLoop, ih]

theorem moreExprs_eq (lhs : Bool) (n : Nat) : moreExprs lhs n = commaLoop (expr lhs) n := by
  induction n with
  | zero => rfl
  | succ n ih => rw [moreExprs, commaLoop, ih]

theorem nameList_eq : nameList = (do
    let (first, others) ← commaList ident
    return first :: others) := by
  funext s
  rw [nameList, commaList]
  simp only [moreNames_eq, bind_assoc, pure_bind]

theorem exprList_eq (lhs : Bool) : exprList lhs = commaList (expr lhs) := by
  funext s
  rw [exprList, commaList]
  simp only [moreExprs_eq]

/-! ### Choices

What a parser does at the current token, one equation for each alternative. -/

section
-- The equations that the lemmas below rewrite with are made here, once.
attribute [local simp] unary chain bareType? specs leaf simple stmt expectSemi

variable {s : State} {lhs : Bool}

theorem expect_of_kind {kind : Kind} (h : s.token.kind = kind) :
    expect kind s = .ok s.token.pos s.next := by
  rw [expect, currentPos_bind, require]
  have hrequire : (do
      if (← currentKind) = kind then return else expected (.token kind) : Parser Unit) s = .ok () s := by
    rw [currentKind_bind, if_pos h]
    rfl
  rw [bind_of_ok hrequire]
  rfl

theorem expectSemi_of_semi (h : s.token.kind = .semi) : expectSemi s = .ok () s.next := by
  rw [expectSemi, currentKind_bind]
  simp only [h]
  rfl

theorem expectSemi_of_close (h : s.token.kind = .rparen ∨ s.token.kind = .rbrace) :
    expectSemi s = .ok () s := by
  rw [expectSemi, currentKind_bind]
  rcases h with h | h
  all_goals
    simp only [h]
    rfl

theorem expectSemi_of_other (hsemi : s.token.kind ≠ .semi)
    (hclose : ¬ (s.token.kind = .rparen ∨ s.token.kind = .rbrace)) :
    expectSemi s = expected (.token .semi) s := by
  rw [expectSemi, currentKind_bind]
  refine congrFun ?_ s
  split
  · exact absurd (.inl ‹_›) hclose
  · exact absurd (.inr ‹_›) hclose
  · exact absurd ‹_› hsemi
  · rfl

theorem leaf_of_literal {kind : LiteralKind} (h : LiteralKind.ofToken? s.token.kind = some kind) :
    leaf lhs s = .ok (.literal s.next.nextId ⟨s.token.pos, kind, s.token.text⟩)
      { s.next with nextId := s.next.nextId + 1 } := by
  rw [leaf, currentToken_bind]
  simp only [h]
  rfl

theorem leaf_of_ident (h : s.token.kind = .ident) :
    leaf lhs s = (do
      let name ← ident
      resolveIf (!lhs) (.ident (← freshId) name)) s := by
  rw [leaf, currentToken_bind]
  simp only [h, LiteralKind.ofToken?, ↓reduceIte]

theorem leaf_of_other (hliteral : LiteralKind.ofToken? s.token.kind = none) (hident : s.token.kind ≠ .ident) :
    leaf lhs s = skippedExpr statementStarts (expected .operand) s := by
  rw [leaf, currentToken_bind]
  simp only [hliteral, hident, ↓reduceIte]

theorem unary_zero_of_op {op : UnaryOp} (h : UnaryOp.ofToken? s.token.kind = some op) :
    unary 0 lhs s = tooDeep s := by
  rw [unary, currentToken_bind]
  simp only [h]

theorem unary_succ_of_op {room : Nat} {op : UnaryOp} (h : UnaryOp.ofToken? s.token.kind = some op) :
    unary (room + 1) lhs s = (do
      let operand ← unary room false
      leave
      return Expr.unary (← freshId) op s.token.pos operand) s.inside := by
  rw [unary, currentToken_bind]
  simp only [h]
  rfl

theorem unary_zero_of_lparen (h : s.token.kind = .lparen) : unary 0 lhs s = tooDeep s := by
  rw [unary, currentToken_bind]
  simp only [h, UnaryOp.ofToken?, ↓reduceIte]

theorem unary_succ_of_lparen {room : Nat} (h : s.token.kind = .lparen) :
    unary (room + 1) lhs s = (do
      let inner ← withRhs true <| keepDepth do
        let first ← unary room false
        chain room false 1 first
      leave
      let rparen ← expect .rparen
      return Expr.paren (← freshId) s.token.pos inner rparen) s.inside := by
  rw [unary, currentToken_bind]
  simp only [h, UnaryOp.ofToken?, ↓reduceIte]
  rfl

theorem unary_of_leaf {room : Nat} (hop : UnaryOp.ofToken? s.token.kind = none)
    (hlparen : s.token.kind ≠ .lparen) : unary room lhs s = leaf lhs s := by
  cases room <;>
  · rw [unary, currentToken_bind]
    simp only [hop, hlparen, ↓reduceIte]

variable {floor : Nat} {left : Expr} {op : BinaryOp}

theorem chain_of_stop {room : Nat} (h : ∀ op, s.binaryOp? = some op → op.precedence < floor) :
    chain room lhs floor left s = .ok left s := by
  cases hop : s.binaryOp? with
  | none =>
    cases room <;>
    · rw [chain, operator?_bind]
      simp only [hop]
      rfl
  | some op =>
    cases room <;>
    · rw [chain, operator?_bind]
      simp only [hop, h op hop, ↓reduceIte]
      rfl

theorem chain_zero (h : s.binaryOp? = some op) (hle : floor ≤ op.precedence) :
    chain 0 lhs floor left s = (do
      let opPos ← expect op.token
      let left ← resolveIf lhs left
      let right ← tooDeep
      return Expr.binary (← freshId) op opPos left right) s := by
  rw [chain, operator?_bind]
  simp only [h, Nat.not_lt.mpr hle, ↓reduceIte]

theorem chain_succ {room : Nat} (h : s.binaryOp? = some op) (hle : floor ≤ op.precedence) :
    chain (room + 1) lhs floor left s = (do
      let opPos ← expect op.token
      let left ← resolveIf lhs left
      enter
      let right ← keepDepth do
        let first ← unary room false
        chain room false op.rightFloor first
      let joined := Expr.binary (← freshId) op opPos left right
      chain room false floor joined) s := by
  rw [chain, operator?_bind]
  simp only [h, Nat.not_lt.mpr hle, ↓reduceIte]

theorem bareType?_of_ident {room : Nat} (h : s.token.kind = .ident) :
    bareType? room s = (do
      let name ← ident
      return some (Expr.ident (← freshId) name)) s := by
  cases room <;>
  · rw [bareType?, currentToken_bind]
    simp only [h, ↓reduceIte]

theorem bareType?_zero_of_lparen (h : s.token.kind = .lparen) :
    bareType? 0 s = (do return some (← tooDeep)) s := by
  rw [bareType?, currentToken_bind]
  simp only [h, reduceCtorEq, ↓reduceIte]

theorem bareType?_succ_of_lparen {room : Nat} (h : s.token.kind = .lparen) :
    bareType? (room + 1) s = (do
      let found ← bareType? room
      let inner ← typeOrSkipped found
      leave
      let rparen ← expect .rparen
      return some (Expr.paren (← freshId) s.token.pos inner rparen)) s.inside := by
  rw [bareType?, currentToken_bind]
  simp only [h, reduceCtorEq, ↓reduceIte]
  rfl

theorem bareType?_of_other {room : Nat} (hident : s.token.kind ≠ .ident)
    (hlparen : s.token.kind ≠ .lparen) : bareType? room s = .ok none s := by
  cases room <;>
  · rw [bareType?, currentToken_bind]
    simp only [hident, hlparen, ↓reduceIte]
    rfl

theorem specs_of_end {keyword : DeclKeyword} {index n : Nat}
    (h : s.token.kind = .rparen ∨ s.token.kind = .eof) : specs keyword index n s = .ok [] s := by
  cases n with
  | zero => rfl
  | succ n =>
    rw [specs, currentKind_bind]
    rcases h with h | h
    all_goals
      simp only [h]
      rfl

theorem specs_succ {keyword : DeclKeyword} {index n : Nat} (hrparen : s.token.kind ≠ .rparen)
    (heof : s.token.kind ≠ .eof) :
    specs keyword index (n + 1) s = (do
      let first ← spec keyword index
      return first :: (← specs keyword (index + 1) n)) s := by
  rw [specs, currentKind_bind]
  refine congrFun ?_ s
  split
  · exact absurd ‹_› hrparen
  · exact absurd ‹_› heof
  · rfl

section
variable {t : State} {first : Expr} {others : List Expr} (hlist : lhsList s = .ok (first, others) t)
include hlist

theorem simple_of_assign {op : AssignOp} (h : AssignOp.ofToken? t.token.kind = some op) :
    simple s = (do
      let right ← rhsList
      return fun id => Stmt.assign id (first :: others) op t.token.pos right) t.next := by
  rw [simple, bind_of_ok hlist]
  dsimp only
  rw [currentToken_bind]
  simp only [h]
  rfl

theorem simple_of_incDec (increment : Bool) (h : t.token.kind = if increment then .inc else .dec) :
    simple s = (do
      reportAny (if others.isEmpty then none else some (first.pos, .severalExpressions))
      next
      return fun id => Stmt.incDec id first t.token.pos increment) t := by
  rw [simple, bind_of_ok hlist]
  dsimp only
  rw [currentToken_bind]
  cases increment with
  | true => simp only [h, ↓reduceIte, AssignOp.ofToken?]
  | false => simp only [h, Bool.false_eq_true, ↓reduceIte, AssignOp.ofToken?]

theorem simple_of_other (hassign : AssignOp.ofToken? t.token.kind = none)
    (hincDec : ∀ increment : Bool, t.token.kind ≠ if increment then .inc else .dec) :
    simple s = (do
      reportAny (if others.isEmpty then none else some (first.pos, .severalExpressions))
      return fun id => Stmt.expr id first) t := by
  have hinc : t.token.kind ≠ .inc := hincDec true
  have hdec : t.token.kind ≠ .dec := hincDec false
  rw [simple, bind_of_ok hlist]
  dsimp only
  rw [currentToken_bind]
  simp only [hassign]

end

theorem stmt_of_keyword {keyword : DeclKeyword} (h : DeclKeyword.ofToken? s.token.kind = some keyword) :
    stmt s = (do
      let d ← decl keyword
      return Stmt.decl (← freshId) d) s := by
  rw [stmt, currentToken_bind]
  simp only [h]

/-- No operand starts with a keyword. -/
theorem keyword_of_startsOperand {kind : Kind} (h : startsOperand kind = true) : DeclKeyword.ofToken? kind = none := by
  cases kind with
  | constWord | letWord | varWord => cases h
  | _ => rfl

theorem stmt_of_operand (h : startsOperand s.token.kind = true) :
    stmt s = (do
      let made ← simple
      expectSemi
      return made (← freshId)) s := by
  have hkeyword := keyword_of_startsOperand h
  rw [stmt, currentToken_bind]
  simp only [hkeyword, h, ↓reduceIte]

theorem stmt_of_semi (h : s.token.kind = .semi) :
    stmt s = .ok (.empty s.next.nextId s.token.pos s.token.isImplicitSemi)
      { s.next with nextId := s.next.nextId + 1 } := by
  rw [stmt, currentToken_bind]
  simp only [h, DeclKeyword.ofToken?]
  rfl

theorem stmt_of_other (hkeyword : DeclKeyword.ofToken? s.token.kind = none)
    (h : startsOperand s.token.kind = false) (hsemi : s.token.kind ≠ .semi) :
    stmt s = (do
      let span ← skipped statementStarts (expected .statement)
      return Stmt.bad (← freshId) span.start span.stop) s := by
  rw [stmt, currentToken_bind]
  simp only [hkeyword, h, hsemi, Bool.false_eq_true, ↓reduceIte]

end

end RoseLang.Parse
