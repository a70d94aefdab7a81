import RoseLang.Proofs.Parse.Step

/-!
# How parsers are built

Every parser is put together from a few elementary steps, and `Built` says so once for all of them. What
each step has and composition passes on then holds of every parser, by induction on how it is built. So a
`StepRel`, a preorder on states that the steps respect, relates the states before and after any parser,
whether it comes to its end or is stopped, which happens only when too many faults have been kept.
-/

namespace RoseLang.Parse

variable {α β : Type}

/-- Gives what `f` sees of the state. -/
def look (f : State → α) : Parser α := fun s => .ok (f s) s

/-- Declares a name. A redeclaration is given, and not reported. -/
def declareOnly (kind : ObjectKind) (decl : NodeId) (index : Nat) (name : Ident) :
    Parser (Ident × Option Redeclaration) :=
  modifyGet fun s =>
    let (name, again, names) := s.names.declare name kind decl index
    ((name, again), { s with names })

theorem declare_eq (kind : ObjectKind) (decl : NodeId) (index : Nat) (name : Ident) :
    declare kind decl index name = (do
      let (name, again) ← declareOnly kind decl index name
      reportAny (again.map fun r => (r.pos, .redeclared r))
      return name) := rfl

/-- How a parser is put together. What it looks at says nothing of the faults that have been kept or are
wanted; only `next` and `report` ask for those. -/
inductive Built : {α : Type} → Parser α → Prop where
  | pure {α : Type} (a : α) : Built (Pure.pure a : Parser α)
  | bind {α β : Type} {p : Parser α} {f : α → Parser β} : Built p → (∀ a, Built (f a)) → Built (p >>= f)
  | look {α : Type} (f : State → α) (h : ∀ s allErrors findings, f { s with allErrors, findings } = f s) :
    Built (Parse.look f)
  | next : Built Parse.next
  | report (pos : Pos) (fault : Fault) : Built (Parse.report pos fault)
  | skipTo (kinds : List Kind) : Built (Parse.skipTo kinds)
  | setDepth (f : Nat → Nat) : Built (modify fun s => { s with depth := f s.depth } : Parser PUnit)
  | setRhs (inRhs : Bool) : Built (modify fun s => { s with inRhs } : Parser PUnit)
  | freshId : Built Parse.freshId
  | resolve (i : Ident) : Built (Parse.resolve i)
  | declareOnly (kind : ObjectKind) (decl : NodeId) (index : Nat) (name : Ident) :
    Built (Parse.declareOnly kind decl index name)

namespace Built

theorem currentToken : Built currentToken := .look State.token fun _ _ _ => rfl

theorem currentKind : Built currentKind := .look (·.token.kind) fun _ _ _ => rfl

theorem currentPos : Built currentPos := .look (·.token.pos) fun _ _ _ => rfl

theorem operator? : Built operator? := .look State.binaryOp? fun _ _ _ => rfl

theorem roomLeft : Built roomLeft := .look (maxDepth - ·.depth) fun _ _ _ => rfl

theorem enter : Built enter := .setDepth (· + 1)

theorem leave : Built leave := .setDepth (· - 1)

/-- A loop that is bounded by the number of tokens left. -/
theorem bounded {loop : Nat → Parser α} {f : α → Parser β} (hloop : ∀ n, Built (loop n))
    (hf : ∀ a, Built (f a)) : Built (get >>= fun s => loop s.rest.length >>= f) := by
  show Built (Parse.look (·.rest.length) >>= fun n => loop n >>= f)
  exact .bind (.look _ fun _ _ _ => rfl) fun n => .bind (hloop n) hf

theorem keepDepth {p : Parser α} (hp : Built p) : Built (keepDepth p) := by
  show Built do
    let depth ← Parse.look State.depth
    let a ← p
    modify fun s => { s with depth }
    return a
  exact .bind (.look State.depth fun _ _ _ => rfl) fun depth => .bind hp fun a =>
    .bind (.setDepth fun _ => depth) fun _ => .pure a

theorem withRhs (inRhs : Bool) {p : Parser α} (hp : Built p) : Built (withRhs inRhs p) := by
  show Built do
    let old ← Parse.look State.inRhs
    modify fun s => { s with inRhs }
    let a ← p
    modify fun s => { s with inRhs := old }
    return a
  exact .bind (.look State.inRhs fun _ _ _ => rfl) fun old => .bind (.setRhs inRhs) fun _ =>
    .bind hp fun a => .bind (.setRhs old) fun _ => .pure a

theorem mapM {f : α → Parser β} (hf : ∀ a, Built (f a)) (as : List α) : Built (as.mapM f) := by
  induction as with
  | nil =>
    rw [List.mapM_nil]
    exact .pure []
  | cons a as ih =>
    rw [List.mapM_cons]
    exact .bind (hf a) fun b => .bind ih fun bs => .pure (b :: bs)

theorem reportAny (fault : Option (Pos × Fault)) : Built (reportAny fault) := by
  cases fault with
  | none => exact .pure ()
  | some f => exact .report f.1 f.2

theorem expected (what : Expectation) : Built (expected what) :=
  .bind .currentToken fun _ => .report _ _

theorem require (kind : Kind) : Built (require kind) := by
  refine .bind .currentKind fun found => ?_
  split
  · exact .pure ()
  · exact .expected _

theorem expect (kind : Kind) : Built (expect kind) :=
  .bind .currentPos fun pos => .bind (.require kind) fun _ =>
    .bind .next fun _ => .pure pos

theorem expectSemi : Built expectSemi := by
  refine .bind .currentKind fun found => ?_
  split
  · exact .pure ()
  · exact .pure ()
  · exact .next
  · exact .expected _

theorem skipped (kinds : List Kind) {complaint : Parser Unit} (h : Built complaint) :
    Built (skipped kinds complaint) :=
  .bind .currentPos fun _ => .bind h fun _ => .bind (.skipTo kinds) fun _ =>
    .bind .currentPos fun _ => .pure _

theorem skippedExpr (kinds : List Kind) {complaint : Parser Unit} (h : Built complaint) :
    Built (skippedExpr kinds complaint) :=
  .bind (.skipped kinds h) fun _ => .bind .freshId fun _ => .pure _

theorem tooDeep : Built tooDeep :=
  .skippedExpr _ (.bind .currentPos fun _ => .report _ _)

theorem resolveExpr (e : Expr) : Built (resolveExpr e) := by
  cases e with
  | ident id i => exact .bind (.resolve i) fun _ => .pure _
  | _ => exact .pure _

theorem resolveIf (now : Bool) (e : Expr) : Built (resolveIf now e) := by
  rw [Parse.resolveIf]
  split
  · exact .resolveExpr e
  · exact .pure e

theorem ident : Built ident := by
  refine .bind .currentToken fun t => ?_
  split
  · exact .bind .next fun _ => .bind .freshId fun _ => .pure _
  · exact .bind (.expect _) fun _ => .bind .freshId fun _ => .pure _

theorem leaf (lhs : Bool) : Built (leaf lhs) := by
  refine .bind .currentToken fun t => ?_
  split
  · exact .bind .next fun _ => .bind .freshId fun _ => .pure _
  · split
    · exact .bind .ident fun _ => .bind .freshId fun _ => .resolveIf _ _
    · exact .skippedExpr _ (.expected _)

/-- Operands and chains call each other with less room, so one induction covers both. -/
theorem unary_chain (room : Nat) :
    (∀ lhs, Built (unary room lhs)) ∧
      ∀ lhs floor left, Built (chain room lhs floor left) := by
  induction room with
  | zero =>
    constructor
    · intro lhs
      rw [unary]
      refine .bind .currentToken fun t => ?_
      split
      · exact .tooDeep
      · split
        · exact .tooDeep
        · exact .leaf lhs
    · intro lhs floor left
      rw [chain]
      refine .bind .operator? fun op? => ?_
      split
      · exact .pure left
      · split
        · exact .pure left
        · exact .bind (.expect _) fun _ => .bind (.resolveIf _ _) fun _ =>
            .bind .tooDeep fun _ => .bind .freshId fun _ => .pure _
  | succ room ih =>
    obtain ⟨hunary, hchain⟩ := ih
    constructor
    · intro lhs
      rw [unary]
      refine .bind .currentToken fun t => ?_
      split
      · exact .bind .enter fun _ => .bind .next fun _ => .bind (hunary false) fun _ =>
          .bind .leave fun _ => .bind .freshId fun _ => .pure _
      · split
        · exact .bind .enter fun _ => .bind .next fun _ =>
            .bind (.withRhs _ (.keepDepth (.bind (hunary _) fun _ => hchain _ _ _))) fun _ =>
              .bind .leave fun _ => .bind (.expect _) fun _ => .bind .freshId fun _ =>
                .pure _
        · exact .leaf lhs
    · intro lhs floor left
      rw [chain]
      refine .bind .operator? fun op? => ?_
      split
      · exact .pure left
      · split
        · exact .pure left
        · exact .bind (.expect _) fun _ => .bind (.resolveIf _ _) fun _ =>
            .bind .enter fun _ =>
              .bind (.keepDepth (.bind (hunary _) fun _ => hchain _ _ _)) fun _ =>
                .bind .freshId fun _ => hchain _ _ _

theorem unary (room : Nat) (lhs : Bool) : Built (unary room lhs) := (unary_chain room).1 lhs

theorem chain (room : Nat) (lhs : Bool) (floor : Nat) (left : Expr) :
    Built (chain room lhs floor left) := (unary_chain room).2 lhs floor left

/-- The chain inside parentheses or to the right of an operator. -/
theorem operand (room : Nat) (lhs : Bool) (floor : Nat) : Built (Parse.keepDepth do
    let first ← Parse.unary room lhs
    Parse.chain room lhs floor first) :=
  .keepDepth (.bind (.unary room lhs) fun first => .chain room lhs floor first)

theorem expr (lhs : Bool) : Built (expr lhs) :=
  .bind .roomLeft fun room => .operand room lhs 1

theorem commaLoop {item : Parser α} (hitem : Built item) (n : Nat) : Built (commaLoop item n) := by
  induction n with
  | zero => exact .pure []
  | succ n ih =>
    refine .bind .currentKind fun kind => ?_
    split
    · exact .bind .next fun _ => .bind hitem fun _ => .bind ih fun _ => .pure _
    · exact .pure []

theorem commaList {item : Parser α} (hitem : Built item) : Built (commaList item) :=
  .bind hitem fun _ => .bounded (.commaLoop hitem) fun _ => .pure _

theorem exprList (lhs : Bool) : Built (exprList lhs) := exprList_eq lhs ▸ .commaList (.expr lhs)

theorem lhsList : Built lhsList := by
  refine .bind (.withRhs _ (.exprList _)) fun list => ?_
  refine .bind .currentKind fun kind => ?_
  split
  · exact .pure _
  · exact .bind (.resolveExpr _) fun _ => .bind (.mapM .resolveExpr _) fun _ => .pure _

theorem rhsList : Built rhsList :=
  .bind (.withRhs _ (.exprList _)) fun _ => .pure _

theorem typeOrSkipped (found : Option Expr) : Built (typeOrSkipped found) := by
  cases found with
  | none => exact .skippedExpr _ (.expected _)
  | some type => exact .pure type

theorem bareType? (room : Nat) : Built (bareType? room) := by
  induction room with
  | zero =>
    refine .bind .currentToken fun t => ?_
    split
    · exact .bind .ident fun _ => .bind .freshId fun _ => .pure _
    · split
      · exact .bind .tooDeep fun _ => .pure _
      · exact .pure none
  | succ room ih =>
    refine .bind .currentToken fun t => ?_
    split
    · exact .bind .ident fun _ => .bind .freshId fun _ => .pure _
    · split
      · exact .bind .enter fun _ => .bind .next fun _ => .bind ih fun _ =>
          .bind (.typeOrSkipped _) fun _ => .bind .leave fun _ =>
            .bind (.expect _) fun _ => .bind .freshId fun _ => .pure _
      · exact .pure none

theorem resolveType (type : Expr) : Built (resolveType type) := by
  induction type with
  | paren id lparen inner rparen ih => exact .bind ih fun _ => .pure _
  | ident id i =>
    rw [Parse.resolveType]
    split
    · exact .pure _
    · exact .bind (.resolve i) fun _ => .bind (.reportAny _) fun _ => .pure _
  | _ => exact .pure _

theorem type? : Built type? := by
  refine .bind .roomLeft fun room => ?_
  refine .bind (.bareType? room) fun found => ?_
  split
  · exact .bind (.resolveType _) fun _ => .pure _
  · exact .pure none

theorem nameList : Built nameList := by
  rw [nameList_eq]
  exact .bind (.commaList .ident) fun _ => .pure _

theorem declare (kind : ObjectKind) (decl : NodeId) (index : Nat) (name : Ident) :
    Built (declare kind decl index name) := by
  rw [declare_eq]
  exact .bind (.declareOnly kind decl index name) fun _ => .bind (.reportAny _) fun _ => .pure _

theorem initialValues : Built initialValues := by
  refine .bind .currentKind fun kind => ?_
  split
  · exact .bind .next fun _ => .rhsList
  · exact .pure []

theorem spec (keyword : DeclKeyword) (index : Nat) : Built (spec keyword index) :=
  .bind .currentPos fun _ => .bind .nameList fun _ => .bind .type? fun _ =>
    .bind .initialValues fun _ => .bind .expectSemi fun _ => .bind (.reportAny _) fun _ =>
      .bind .freshId fun _ => .bind (.mapM (.declare _ _ _) _) fun _ => .pure _

theorem specs (keyword : DeclKeyword) (index n : Nat) : Built (specs keyword index n) := by
  induction n generalizing index with
  | zero => exact .pure []
  | succ n ih =>
    refine .bind .currentKind fun kind => ?_
    split
    · exact .pure []
    · exact .pure []
    · exact .bind (.spec keyword index) fun _ => .bind (ih (index + 1)) fun _ => .pure _

theorem decl (keyword : DeclKeyword) : Built (decl keyword) := by
  refine .bind (.expect _) fun _ => ?_
  refine .bind .currentKind fun kind => ?_
  split
  · exact .bind (.expect _) fun _ => .bounded (.specs keyword 0) fun _ =>
      .bind (.expect _) fun _ => .bind .expectSemi fun _ => .bind .freshId fun _ => .pure _
  · exact .bind (.spec _ _) fun _ => .bind .freshId fun _ => .pure _

theorem simple : Built simple := by
  refine .bind .lhsList fun list => ?_
  refine .bind .currentToken fun t => ?_
  split
  · exact .bind .next fun _ => .bind .rhsList fun _ => .pure _
  · refine .bind (.reportAny _) fun _ => ?_
    split
    · exact .bind .next fun _ => .pure _
    · exact .bind .next fun _ => .pure _
    · exact .pure _

theorem stmt : Built stmt := by
  refine .bind .currentToken fun t => ?_
  split
  · exact .bind (.decl _) fun _ => .bind .freshId fun _ => .pure _
  · split
    · exact .bind .simple fun _ => .bind .expectSemi fun _ => .bind .freshId fun _ => .pure _
    · split
      · exact .bind .next fun _ => .bind .freshId fun _ => .pure _
      · exact .bind (.skipped _ (.expected _)) fun _ => .bind .freshId fun _ => .pure _

end Built

/-! ### What every step respects -/

/-- A preorder on states that the elementary steps of a parse respect. The fields that only steer the
parse, and that parsers set back, may change at will. -/
structure StepRel (R : State → State → Prop) : Prop where
  refl (s : State) : R s s
  trans {s t u : State} : R s t → R t u → R s u
  next (s : State) : R s s.next
  keep (s : State) (finding : Finding) : R s (s.keep finding)
  steer (s : State) (syncPos : Pos) (syncCount depth : Nat) (inRhs : Bool) :
    R s { s with syncPos, syncCount, depth, inRhs }
  number (s : State) : R s { s with nextId := s.nextId + 1 }
  resolve (s : State) (i : Ident) : R s { s with names := (s.names.resolve i true).2.2 }
  declare (s : State) (i : Ident) (kind : ObjectKind) (decl : NodeId) (index : Nat) :
    R s { s with names := (s.names.declare i kind decl index).2.2 }

/-- The states before and after `p` are related, also if it is stopped, and it is stopped only by too
many faults. -/
structure Respects (R : State → State → Prop) (p : Parser α) : Prop where
  endState (s : State) : R s (endState p s)
  isFull {s s' : State} {e : Stop} : p s = .error e s' → s'.isFull = true

theorem Respects.of_ok {R : State → State → Prop} {p : Parser α} (h : Respects R p) {s s' : State}
    {a : α} (hrun : p s = .ok a s') : R s s' := by
  have := h.endState s
  rwa [endState_of_ok hrun] at this

theorem Respects.of_error {R : State → State → Prop} {p : Parser α} (h : Respects R p) {s s' : State}
    {e : Stop} (hrun : p s = .error e s') : R s s' := by
  have := h.endState s
  rwa [Parse.endState, hrun] at this

/-- A step that is never stopped. -/
theorem Respects.of_step {R : State → State → Prop} {p : Parser α}
    (h : ∀ s, ∃ a s', p s = .ok a s' ∧ R s s') : Respects R p := by
  constructor
  · intro s
    obtain ⟨a, s', hrun, hs⟩ := h s
    rwa [endState_of_ok hrun]
  · intro s s' e hrun
    obtain ⟨a, t, hok, -⟩ := h s
    rw [hok] at hrun
    cases hrun

/-- A step that only changes the state. -/
theorem Respects.of_modify {R : State → State → Prop} {f : State → State} (h : ∀ s, R s (f s)) :
    Respects R (modify f : Parser PUnit) :=
  Respects.of_step fun s => ⟨_, _, rfl, h s⟩

namespace StepRel

variable {R : State → State → Prop} (hR : StepRel R)
include hR

theorem stop {kinds : List Kind} {s s' : State} (h : s.stop? kinds = some s') : R s s' := by
  obtain ⟨-, ⟨-, -, rfl⟩ | ⟨-, rfl⟩⟩ := State.stop?_eq_some h
  · exact hR.steer s s.syncPos (s.syncCount + 1) s.depth s.inRhs
  · exact hR.steer s s.token.pos 0 s.depth s.inRhs

theorem skipTo (kinds : List Kind) (s : State) : R s (s.skipTo kinds) := by
  fun_induction State.skipTo kinds s with
  | case1 s heof => exact hR.refl s
  | case2 s heof s' hstop => exact hR.stop hstop
  | case3 s heof hstop hrest => exact hR.refl s
  | case4 s heof hstop hrest ih => exact hR.trans (hR.next s) ih

theorem report (pos : Pos) (fault : Fault) : Respects R (report pos fault) := by
  constructor
  · intro s
    rw [Parse.report, endState_congr (get_bind s _)]
    split
    · exact hR.keep s _
    · split
      · exact hR.refl s
      · split
        · exact hR.refl s
        · exact hR.keep s _
  · intro s s' e h
    rw [Parse.report, get_bind] at h
    split at h
    · cases h
    · split at h
      · cases h
      · split at h
        · next hfull =>
          cases h
          exact hfull
        · cases h

theorem bind {p : Parser α} {f : α → Parser β} (hp : Respects R p) (hf : ∀ a, Respects R (f a)) :
    Respects R (p >>= f) := by
  constructor
  · intro s
    rw [endState_bind]
    cases hrun : p s with
    | ok a t => exact hR.trans (hp.of_ok hrun) ((hf a).endState t)
    | error e t => exact hp.of_error hrun
  · intro s s' e h
    rcases bind_eq_error.mp h with hrun | ⟨a, t, -, hrun⟩
    · exact hp.isFull hrun
    · exact (hf a).isFull hrun

/-- What the steps respect, every parser does. -/
theorem respects {p : Parser α} (h : Built p) : Respects R p := by
  induction h with
  | pure a => exact .of_step fun s => ⟨a, s, rfl, hR.refl s⟩
  | bind _ _ ihp ihf => exact hR.bind ihp ihf
  | look f _ => exact .of_step fun s => ⟨f s, s, rfl, hR.refl s⟩
  | next => exact .of_modify hR.next
  | report pos fault => exact hR.report pos fault
  | skipTo kinds => exact .of_modify (hR.skipTo kinds)
  | setDepth f => exact .of_modify fun s => hR.steer s s.syncPos s.syncCount (f s.depth) s.inRhs
  | setRhs inRhs => exact .of_modify fun s => hR.steer s s.syncPos s.syncCount s.depth inRhs
  | freshId => exact .of_step fun s => ⟨_, _, rfl, hR.number s⟩
  | resolve i => exact .of_step fun s => ⟨_, _, rfl, hR.resolve s i⟩
  | declareOnly kind decl index name => exact .of_step fun s => ⟨_, _, rfl, hR.declare s name kind decl index⟩

theorem stmts (hmade : ∀ s st, R s { s with stmts := s.stmts ++ [st] }) (n : Nat) :
    Respects R (stmts n) := by
  induction n with
  | zero => exact hR.respects (.pure ())
  | succ n ih =>
    refine hR.bind (hR.respects .currentKind) fun kind => ?_
    split
    · exact hR.respects (.pure ())
    · exact hR.bind (hR.respects .stmt) fun st => hR.bind (.of_modify fun s => hmade s st) fun _ => ih

end StepRel

end RoseLang.Parse
