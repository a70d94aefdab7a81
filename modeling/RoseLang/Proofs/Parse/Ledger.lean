import RoseLang.Proofs.Parse.Accounts.Faults
import RoseLang.Proofs.Parse.Spans.Stmt
import RoseLang.Proofs.Syntax.Walk

/-!
# Ledgers of the nodes that are made

A ledger relates a state to what a walk finds in the nodes made so far. It is kept by each elementary step: a
number that is given out adds what the walk finds in it, and a syntax fault what it finds in a bad node that starts
there. Then every parser keeps it, with what the walk finds in the value that is made. The parsers are gone through
here once, for all ledgers.
-/

namespace RoseLang

/-- What is found where a fault is, if it is about the order of the tokens. -/
def Walk.fault {X : Type} (w : Walk X) (pos : Pos) (fault : Parse.Fault) : List X :=
  if fault.kind = .syntactic then w.bad pos else []

namespace Parse

variable {α β X : Type} {ls : List Lexeme} {w : Walk X} {Holds : List X → State → Prop} {given : List X}
  {s s' : State}

/-- `Holds` is a ledger of what the walk `w` finds, in a parse of the lexemes `ls`. -/
structure Ledger (ls : List Lexeme) (w : Walk X) (Holds : List X → State → Prop) : Prop where
  tokens {found : List X} {s : State} : Holds found s → s.tokens <:+ ls.map Lexeme.token
  fewer {found kept : List X} {s : State} : Holds found s → kept.Sublist found → Holds kept s
  next {found : List X} {s : State} : Holds found s → Holds found s.next
  steer {found : List X} {s : State} (syncPos : Pos) (syncCount depth : Nat) (inRhs : Bool) (names : Resolver)
    (stmts : List Stmt) :
    Holds found s → Holds found { s with syncPos, syncCount, depth, inRhs, names, stmts }
  number {found : List X} {s : State} :
    Holds found s → Holds (found ++ w.number s.nextId) { s with nextId := s.nextId + 1 }
  report {found : List X} {s s' : State} {pos : Pos} {fault : Fault} : Holds found s → Reportable ls (pos, fault) →
    Parse.report pos fault s = .ok () s' → Holds (found ++ w.fault pos fault) s'

/-- If `Holds given` before the parser, then after it with what is found in its value. -/
def Gathers (Holds : List X → State → Prop) (given : List X) (p : Parser α) (found : α → List X) : Prop :=
  ∀ s a s', Holds given s → p s = .ok a s' → Holds (found a) s'

/-- What is found where the parser complains of the current token. -/
def Complains (w : Walk X) (Holds : List X → State → Prop) (p : Parser Unit) : Prop :=
  ∀ given s s', Holds given s → p s = .ok () s' → Holds (given ++ w.bad s.token.pos) s'

namespace Gathers

variable {found : α → List X} {made : β → List X} {p : Parser α}

theorem pure {a : α} (h : found a = given) : Gathers Holds given (Pure.pure a) found := by
  intro s b s' hs hrun
  obtain ⟨rfl, rfl⟩ := pure_eq_ok.mp hrun
  rwa [h]

theorem bind {f : α → Parser β} (hp : Gathers Holds given p found) (hf : ∀ a, Gathers Holds (found a) (f a) made) :
    Gathers Holds given (p >>= f) made := by
  intro s b s'' hs hrun
  obtain ⟨a, s', ha, hrun⟩ := bind_eq_ok.mp hrun
  exact hf a s' b s'' (hp s a s' hs ha) hrun

theorem of_step {f : State → α} {g : State → State} (hp : ∀ s, p s = .ok (f s) (g s))
    (hg : ∀ s, Holds given s → Holds given (g s)) : Gathers Holds given p fun _ => given := by
  intro s a s' hs hrun
  rw [hp] at hrun
  cases hrun
  exact hg s hs

theorem look (f : State → α) : Gathers Holds given (look f) fun _ => given := .of_step (fun _ => rfl) fun _ => id

theorem currentToken : Gathers Holds given currentToken fun _ => given := .look State.token

theorem currentKind : Gathers Holds given currentKind fun _ => given := .look (·.token.kind)

theorem currentPos : Gathers Holds given currentPos fun _ => given := .look (·.token.pos)

theorem operator? : Gathers Holds given operator? fun _ => given := .look State.binaryOp?

theorem roomLeft : Gathers Holds given roomLeft fun _ => given := .look (maxDepth - ·.depth)

theorem get : Gathers Holds given (MonadState.get : Parser State) fun _ => given := .look id

theorem mapM {f : α → Parser β} (hf : ∀ a, Gathers Holds given (f a) fun _ => given) (as : List α) :
    Gathers Holds given (as.mapM f) fun _ => given := by
  induction as with
  | nil =>
    rw [List.mapM_nil]
    exact .pure rfl
  | cons a as ih =>
    rw [List.mapM_cons]
    exact .bind (hf a) fun _ => .bind ih fun _ => .pure rfl

section
variable (h : Ledger ls w Holds)
include h

/-! ### Elementary steps -/

theorem fewer {kept : α → List X} (hp : Gathers Holds given p found) (hkept : ∀ a, (kept a).Sublist (found a)) :
    Gathers Holds given p kept :=
  fun s a s' hs hrun => h.fewer (hp s a s' hs hrun) (hkept a)

theorem next : Gathers Holds given next fun _ => given := .of_step (fun _ => rfl) fun _ => h.next

theorem freshId : Gathers Holds given freshId fun id => given ++ w.number id :=
  fun s _ _ hs hrun => by cases hrun; exact h.number hs

/-- The last step of a parser, which numbers the node that it has made. -/
theorem number {node : NodeId → α} (hnode : ∀ id, found (node id) = given ++ w.number id) :
    Gathers Holds given (do return node (← Parse.freshId)) found :=
  .bind (.freshId h) fun id => .pure (hnode id)

/-- A step that only changes what steers the parse. -/
theorem steer {f : State → α} {g : State → State} (hp : ∀ s, p s = .ok (f s) (g s))
    (hg : ∀ s, g s = { s with
      syncPos := (g s).syncPos, syncCount := (g s).syncCount, depth := (g s).depth, inRhs := (g s).inRhs,
      names := (g s).names, stmts := (g s).stmts }) : Gathers Holds given p fun _ => given :=
  .of_step hp fun s hs => hg s ▸ h.steer _ _ _ _ _ _ hs

theorem enter : Gathers Holds given enter fun _ => given := .steer h (fun _ => rfl) fun _ => rfl

theorem leave : Gathers Holds given leave fun _ => given := .steer h (fun _ => rfl) fun _ => rfl

theorem resolve (i : Ident) : Gathers Holds given (resolve i) fun _ => given := .steer h (fun _ => rfl) fun _ => rfl

theorem declareOnly (kind : ObjectKind) (decl : NodeId) (index : Nat) (name : Ident) :
    Gathers Holds given (declareOnly kind decl index name) fun _ => given :=
  .steer h (fun _ => rfl) fun _ => rfl

theorem keepDepth (hp : Gathers Holds given p found) : Gathers Holds given (keepDepth p) found := by
  intro s a s' hs hrun
  obtain ⟨t, ht, rfl⟩ := keepDepth_eq_ok.mp hrun
  exact h.steer _ _ _ _ _ _ (hp s a t hs ht)

theorem withRhs (inRhs : Bool) (hp : Gathers Holds given p found) : Gathers Holds given (withRhs inRhs p) found := by
  intro s a s' hs hrun
  obtain ⟨t, ht, rfl⟩ := withRhs_eq_ok.mp hrun
  exact h.steer _ _ _ _ _ _ (hp _ a t (h.steer _ _ _ inRhs _ _ hs) ht)

theorem report {pos : Pos} {fault : Fault} (hfault : Reportable ls (pos, fault)) :
    Gathers Holds given (report pos fault) fun _ => given ++ w.fault pos fault :=
  fun _ _ _ hs hrun => h.report hs hfault hrun

theorem reportAny {fault : Option (Pos × Fault)} (hfault : ∀ f ∈ fault, Reportable ls f) :
    Gathers Holds given (reportAny fault) fun _ => given := by
  cases fault with
  | none => exact .pure rfl
  | some f => exact .fewer h (.report h (hfault f rfl)) fun _ => List.sublist_append_left _ _

end

end Gathers

theorem Ledger.skipTo (h : Ledger ls w Holds) (kinds : List Kind) (hs : Holds given s) :
    Holds given (s.skipTo kinds) := by
  fun_induction State.skipTo kinds s with
  | case1 s heof => exact hs
  | case2 s heof s' hstop =>
    obtain ⟨-, ⟨-, -, rfl⟩ | ⟨-, rfl⟩⟩ := State.stop?_eq_some hstop
    all_goals exact h.steer _ _ _ _ _ _ hs
  | case3 s heof hstop hrest => exact hs
  | case4 s heof hstop hrest ih => exact ih (h.next hs)

namespace Complains

theorem gathers (h : Ledger ls w Holds) {p : Parser Unit} (hp : Complains w Holds p) :
    Gathers Holds given p fun _ => given :=
  fun s _ s' hs hrun => h.fewer (hp given s s' hs hrun) (List.sublist_append_left _ _)

theorem expected (h : Ledger ls w Holds) (what : Expectation) : Complains w Holds (expected what) := by
  intro given s s' hs hrun
  have hwritten : Written ls s.token.kind s.token.text :=
    ⟨s.token, (h.tokens hs).subset List.mem_cons_self, rfl, rfl⟩
  exact Gathers.report h ⟨.expected hwritten, by simp [Fault.kind]⟩ s () s' hs hrun

theorem tooDeep (h : Ledger ls w Holds) : Complains w Holds (currentPos >>= fun pos => report pos .tooDeep) :=
  fun _ s s' hs hrun => Gathers.report h ⟨.tooDeep, by simp [Fault.kind]⟩ s () s' hs hrun

end Complains

namespace Gathers

section
variable (h : Ledger ls w Holds)
include h

theorem expected (what : Expectation) : Gathers Holds given (expected what) fun _ => given :=
  (Complains.expected h what).gathers h

theorem expect (kind : Kind) : Gathers Holds given (expect kind) fun _ => given := by
  refine .bind .currentPos fun _ => .bind (.bind .currentKind fun found => ?_) fun _ => .bind (.next h) fun _ =>
    .pure rfl
  split
  · exact .pure rfl
  · exact .expected h _

theorem expectSemi : Gathers Holds given expectSemi fun _ => given := by
  refine .bind .currentKind fun found => ?_
  split
  · exact .pure rfl
  · exact .pure rfl
  · exact .next h
  · exact .expected h _

/-- What is skipped starts where the complaint is. -/
theorem skipped (kinds : List Kind) {complaint : Parser Unit} (hcomplaint : Complains w Holds complaint) :
    Gathers Holds given (skipped kinds complaint) fun span => given ++ w.bad span.start := by
  intro s span s' hs hrun
  obtain ⟨t, ht, rfl, rfl⟩ := skipped_eq_ok hrun
  exact h.skipTo kinds (hcomplaint given s t hs ht)

/-! ### Expressions -/

theorem skippedExpr (kinds : List Kind) {complaint : Parser Unit} (hcomplaint : Complains w Holds complaint) :
    Gathers Holds given (skippedExpr kinds complaint) fun e => given ++ e.walk w :=
  .bind (.skipped h kinds hcomplaint) fun _ => .number h fun _ => (List.append_assoc _ _ _).symm

theorem tooDeep : Gathers Holds given tooDeep fun e => given ++ e.walk w := .skippedExpr h _ (.tooDeep h)

theorem resolveExpr (e : Expr) : Gathers Holds given (resolveExpr e) fun _ => given := by
  cases e with
  | ident id i => exact .bind (.resolve h i) fun _ => .pure rfl
  | _ => exact .pure rfl

/-- Looking names up changes nothing of what is found. -/
theorem resolveIf (now : Bool) (e : Expr) :
    Gathers Holds (given ++ e.walk w) (resolveIf now e) fun e' => given ++ e'.walk w := by
  intro s e' s' hs hrun
  show Holds (given ++ e'.walk w) s'
  rw [Expr.walk_congr w (resolveIf_unbound hrun).1]
  rw [Parse.resolveIf] at hrun
  split at hrun
  · exact resolveExpr h e s e' s' hs hrun
  · obtain ⟨rfl, rfl⟩ := pure_eq_ok.mp hrun
    exact hs

theorem ident : Gathers Holds given ident fun i => given ++ w.number i.id := by
  refine .bind .currentToken fun t => ?_
  split
  · exact .bind (.next h) fun _ => .number h fun _ => rfl
  · exact .bind (.expect h _) fun _ => .number h fun _ => rfl

theorem leaf (lhs : Bool) : Gathers Holds given (leaf lhs) fun e => given ++ e.walk w := by
  refine .bind .currentToken fun t => ?_
  split
  · exact .bind (.next h) fun _ => .number h fun _ => rfl
  · split
    · refine .bind (.ident h) fun i => .bind (.freshId h) fun id => ?_
      rw [List.append_assoc]
      exact .resolveIf h _ (.ident id i)
    · exact .skippedExpr h _ (.expected h _)

/-- Operands and chains call each other with less room, so one induction covers both. -/
theorem unary_chain (room : Nat) :
    (∀ given lhs, Gathers Holds given (unary room lhs) fun e => given ++ e.walk w) ∧
      ∀ given lhs floor left,
        Gathers Holds (given ++ left.walk w) (chain room lhs floor left) fun e => given ++ e.walk w := by
  induction room with
  | zero =>
    constructor
    · intro given lhs
      rw [Parse.unary]
      refine .bind .currentToken fun t => ?_
      split
      · exact .tooDeep h
      · split
        · exact .tooDeep h
        · exact .leaf h lhs
    · intro given lhs floor left
      rw [Parse.chain]
      refine .bind .operator? fun op? => ?_
      split
      · exact .pure rfl
      · split
        · exact .pure rfl
        · exact .bind (.expect h _) fun _ => .bind (.resolveIf h _ _) fun _ => .bind (.tooDeep h) fun _ =>
            .number h fun _ => by simp only [Expr.walk, List.append_assoc]
  | succ room ih =>
    obtain ⟨hunary, hchain⟩ := ih
    constructor
    · intro given lhs
      rw [Parse.unary]
      refine .bind .currentToken fun t => ?_
      split
      · exact .bind (.enter h) fun _ => .bind (.next h) fun _ => .bind (hunary given false) fun _ =>
          .bind (.leave h) fun _ => .number h fun _ => (List.append_assoc _ _ _).symm
      · split
        · exact .bind (.enter h) fun _ => .bind (.next h) fun _ =>
            .bind (.withRhs h _ (.keepDepth h (.bind (hunary given _) fun _ => hchain given _ _ _))) fun _ =>
              .bind (.leave h) fun _ => .bind (.expect h _) fun _ => .number h fun _ => (List.append_assoc _ _ _).symm
        · exact .leaf h lhs
    · intro given lhs floor left
      rw [Parse.chain]
      refine .bind .operator? fun op? => ?_
      split
      · exact .pure rfl
      · split
        · exact .pure rfl
        · refine .bind (.expect h _) fun opPos => .bind (.resolveIf h _ _) fun left => .bind (.enter h) fun _ =>
            .bind (.keepDepth h (.bind (hunary _ _) fun _ => hchain _ _ _ _)) fun right =>
              .bind (.freshId h) fun id => ?_
          rw [List.append_assoc, List.append_assoc, ← List.append_assoc (left.walk w)]
          exact hchain given _ _ (.binary id _ opPos left right)

theorem expr (lhs : Bool) : Gathers Holds given (expr lhs) fun e => given ++ e.walk w :=
  .bind .roomLeft fun room => .keepDepth h (.bind ((unary_chain h room).1 given lhs) fun _ =>
    (unary_chain h room).2 given lhs 1 _)

/-- In a list is found what is found in its items. -/
theorem commaLoop {item : Parser α} {found : α → List X}
    (hitem : ∀ given, Gathers Holds given item fun a => given ++ found a) (n : Nat) :
    Gathers Holds given (commaLoop item n) fun as => given ++ as.flatMap found := by
  induction n generalizing given with
  | zero => exact .pure (List.append_nil given)
  | succ n ih =>
    refine .bind .currentKind fun kind => ?_
    split
    · exact .bind (.next h) fun _ => .bind (hitem _) fun _ => .bind ih fun _ => .pure (List.append_assoc _ _ _).symm
    · exact .pure (List.append_nil given)

theorem commaList {item : Parser α} {found : α → List X}
    (hitem : ∀ given, Gathers Holds given item fun a => given ++ found a) :
    Gathers Holds given (commaList item) fun list => given ++ (list.1 :: list.2).flatMap found :=
  .bind (hitem given) fun _ => .bind .get fun _ => .bind (.commaLoop h hitem _) fun _ =>
    .pure (List.append_assoc _ _ _).symm

theorem exprList (lhs : Bool) :
    Gathers Holds given (exprList lhs) fun list => given ++ (list.1 :: list.2).flatMap (Expr.walk w) :=
  exprList_eq lhs ▸ .commaList h fun _ => .expr h lhs

theorem lhsList : Gathers Holds given lhsList fun list => given ++ (list.1 :: list.2).flatMap (Expr.walk w) := by
  refine .bind (.withRhs h _ (.exprList h _)) fun ⟨first, others⟩ => .bind .currentKind fun kind => ?_
  split
  · exact .pure rfl
  · intro s list s' hs hrun
    obtain ⟨first', t, hfirst, hrun⟩ := bind_eq_ok.mp hrun
    obtain ⟨others', u, hothers, hrun⟩ := bind_eq_ok.mp hrun
    obtain ⟨rfl, rfl⟩ := pure_eq_ok.mp hrun
    have hsame : (first' :: others').map Expr.unbound = (first :: others).map Expr.unbound := by
      rw [List.map_cons, List.map_cons, (resolveExpr_unbound hfirst).1,
        (mapM_view (fun _ _ _ _ => resolveExpr_unbound) hothers).1]
    show Holds (given ++ (first' :: others').flatMap (Expr.walk w)) u
    rw [Expr.flatMap_walk_congr w hsame]
    exact mapM (resolveExpr h) others _ _ _ (resolveExpr h first _ _ _ hs hfirst) hothers

theorem rhsList : Gathers Holds given rhsList fun es => given ++ es.flatMap (Expr.walk w) :=
  .bind (.withRhs h _ (.exprList h _)) fun _ => .pure rfl

/-! ### Types -/

theorem typeRuns {room : Nat} {type : Expr} (hruns : TypeRuns room s type s') (hs : Holds given s) :
    Holds (given ++ type.walk w) s' := by
  have hinside : ∀ {s}, Holds given s → Holds given s.inside := fun hs => h.next (h.steer _ _ _ _ _ _ hs)
  have hclose : ∀ {t u : State} {inner : Expr} {lparen rparen : Pos}, Holds (given ++ inner.walk w) t →
      Parse.expect .rparen { t with depth := t.depth - 1 } = .ok rparen u →
        Holds (given ++ (Expr.paren u.nextId lparen inner rparen).walk w) { u with nextId := u.nextId + 1 } := by
    intro t u inner lparen rparen ht hrparen
    rw [Expr.walk, ← List.append_assoc]
    exact h.number (expect h _ _ _ _ (h.steer _ _ _ _ _ _ ht) hrparen)
  induction hruns with
  | name hkind hname =>
    rw [Expr.walk, ← List.append_assoc]
    exact h.number (ident h _ _ _ hs hname)
  | tooDeep hlparen hskipped => exact tooDeep h _ _ _ hs hskipped
  | paren hlparen hinner hrparen ih => exact hclose (ih (hinside hs)) hrparen
  | missing hlparen hstart hskipped hrparen =>
    exact hclose (skippedExpr h _ (.expected h _) _ _ _ (hinside hs) hskipped) hrparen

theorem resolveType {type : Expr} (hname : ∀ i, type.bare.ident? = some i → Written ls .ident i.name) :
    Gathers Holds given (resolveType type) fun _ => given := by
  induction type with
  | paren id lparen inner rparen ih => exact .bind (ih hname) fun _ => .pure rfl
  | ident id i =>
    rw [Parse.resolveType]
    split
    · exact .pure rfl
    · intro s e s' hs hrun
      rw [resolve_bind] at hrun
      obtain ⟨binding, hi⟩ := s.names.ident_resolve i true
      rw [hi] at hrun
      obtain ⟨_, t, hreport, hrun⟩ := bind_eq_ok.mp hrun
      obtain ⟨rfl, rfl⟩ := pure_eq_ok.mp hrun
      refine reportAny h (fun f hf => ?_) _ _ _ (h.steer _ _ _ _ _ _ hs) hreport
      obtain ⟨object, -, rfl⟩ := Option.map_eq_some_iff.mp hf
      exact ⟨.notType (hname i rfl), by simp [Fault.kind]⟩
  | _ => exact .pure rfl

theorem type? : Gathers Holds given type? fun type => given ++ type.toList.flatMap (Expr.walk w) := by
  intro s found s' hs hrun
  obtain ⟨bare, t, type, rfl, hbare, htype⟩ | ⟨rfl, rfl, -⟩ := type?_runs hrun
  · have hname : ∀ i, bare.bare.ident? = some i → Written ls .ident i.name := by
      intro i hi
      obtain ⟨t, ht, hwritten⟩ := hbare.written hi
      exact ⟨t, (h.tokens hs).subset ht, hwritten⟩
    show Holds (given ++ [type].flatMap (Expr.walk w)) s'
    rw [List.flatMap_singleton, Expr.walk_congr w (resolveType_unbound htype).1]
    exact resolveType h hname _ _ _ (typeRuns h hbare hs) htype
  · show Holds (given ++ []) s'
    rwa [List.append_nil]

/-! ### Declarations and statements -/

theorem nameList : Gathers Holds given nameList fun names => given ++ names.flatMap fun name => w.number name.id := by
  rw [nameList_eq]
  exact .bind (.commaList h fun _ => .ident h) fun _ => .pure rfl

theorem declare (kind : ObjectKind) (decl : NodeId) (index : Nat) (name : Ident) :
    Gathers Holds given (declare kind decl index name) fun _ => given := by
  rw [declare_eq]
  refine .bind (.declareOnly h kind decl index name) fun ⟨name, again⟩ => .bind (.reportAny h ?_) fun _ => .pure rfl
  intro f hf
  obtain ⟨r, -, rfl⟩ := Option.map_eq_some_iff.mp hf
  exact ⟨.redeclared rfl, by simp [Fault.kind]⟩

theorem initialValues : Gathers Holds given initialValues fun es => given ++ es.flatMap (Expr.walk w) := by
  refine .bind .currentKind fun kind => ?_
  split
  · exact .bind (.next h) fun _ => .rhsList h
  · exact .pure (List.append_nil given)

/-- The names are declared when the spec has its number; they keep their own. -/
theorem spec (keyword : DeclKeyword) (index : Nat) :
    Gathers Holds given (spec keyword index) fun sp => given ++ sp.walk w := by
  refine .bind .currentPos fun pos => .bind (.nameList h) fun names => .bind (.type? h) fun type =>
    .bind (.initialValues h) fun values => .bind (.expectSemi h) fun _ =>
      .bind (.reportAny h fun _ => reportable_of_shapeFault?) fun _ => .bind (.freshId h) fun id => ?_
  intro s sp s' hs hrun
  obtain ⟨names', t, hnames, hrun⟩ := bind_eq_ok.mp hrun
  obtain ⟨rfl, rfl⟩ := pure_eq_ok.mp hrun
  have hids : names'.map Ident.id = names.map Ident.id := by
    have hview := (mapM_view (fun _ _ _ _ => declare_unbound) hnames).1
    have hunbound : ∀ names : List Ident, (names.map Ident.unbound).map Ident.id = names.map Ident.id :=
      fun _ => List.map_map
    rw [← hunbound, hview, hunbound]
  have hnumbers : names'.flatMap (fun name => w.number name.id) = names.flatMap fun name => w.number name.id := by
    rw [← List.flatMap_map Ident.id, hids, List.flatMap_map]
  show Holds (given ++ Spec.walk w ⟨id, names', type, values⟩) t
  rw [Spec.walk, Spec.exprs, List.flatMap_append, hnumbers]
  simp only [← List.append_assoc]
  exact mapM (declare h _ _ _) names _ _ _ hs hnames

theorem specs (keyword : DeclKeyword) (index n : Nat) :
    Gathers Holds given (specs keyword index n) fun entries => given ++ entries.flatMap (Spec.walk w) := by
  induction n generalizing given index with
  | zero => exact .pure (List.append_nil given)
  | succ n ih =>
    refine .bind .currentKind fun kind => ?_
    split
    · exact .pure (List.append_nil given)
    · exact .pure (List.append_nil given)
    · exact .bind (.spec h keyword index) fun _ => .bind (ih _) fun _ => .pure (List.append_assoc _ _ _).symm

theorem decl (keyword : DeclKeyword) : Gathers Holds given (decl keyword) fun d => given ++ d.walk w := by
  refine .bind (.expect h _) fun _ => .bind .currentKind fun kind => ?_
  split
  · exact .bind (.expect h _) fun _ => .bind .get fun _ => .bind (.specs h keyword 0 _) fun _ =>
      .bind (.expect h _) fun _ => .bind (.expectSemi h) fun _ => .number h fun _ => (List.append_assoc _ _ _).symm
  · refine .bind (.spec h _ _) fun entry => .number h fun id => ?_
    rw [Decl.walk, List.flatMap_singleton, List.append_assoc]

/-- Of a list that is no left-hand side only the first expression is kept. -/
theorem simple (id : NodeId) : Gathers Holds given simple fun made => given ++ (made id).walkInside w := by
  refine .bind (.lhsList h) fun ⟨first, others⟩ => .bind .currentToken fun t => ?_
  split
  · refine .bind (.next h) fun _ => .bind (.rhsList h) fun right => .pure ?_
    show given ++ (first :: others ++ right).flatMap (Expr.walk w) = _
    rw [List.flatMap_append, List.append_assoc]
  · have hfirst : (given ++ [first].flatMap (Expr.walk w)).Sublist
        (given ++ (first :: others).flatMap (Expr.walk w)) := by
      rw [List.flatMap_singleton, List.flatMap_cons]
      exact (List.sublist_append_left _ _).append_left given
    refine .bind (Gathers.fewer h (.reportAny h fun f hf => ?_) fun _ => hfirst) fun _ => ?_
    · split at hf
      · cases hf
      · cases hf
        exact ⟨.severalExpressions, by simp [Fault.kind]⟩
    · split
      · exact .bind (.next h) fun _ => .pure rfl
      · exact .bind (.next h) fun _ => .pure rfl
      · exact .pure rfl

theorem stmt : Gathers Holds given stmt fun st => given ++ st.walk w := by
  refine .bind .currentToken fun t => ?_
  split
  · exact .bind (.decl h _) fun _ => .number h fun _ => (List.append_assoc _ _ _).symm
  · split
    · intro s st s' hs hrun
      obtain ⟨made, u, hmade, hrun⟩ := bind_eq_ok.mp hrun
      obtain ⟨_, v, hclose, hrun⟩ := bind_eq_ok.mp hrun
      rw [freshId_bind, pure_eq_ok] at hrun
      obtain ⟨rfl, rfl⟩ := hrun
      have hu := simple h v.nextId s made u hs hmade
      have hv := expectSemi h u () v hu hclose
      show Holds (given ++ ((made v.nextId).walkInside w ++ w.number (made v.nextId).id)) _
      rw [id_simple hmade, ← List.append_assoc]
      exact h.number hv
    · split
      · exact .bind (.next h) fun _ => .number h fun _ => rfl
      · exact .bind (.skipped h _ (.expected h _)) fun _ => .number h fun _ => (List.append_assoc _ _ _).symm

end

end Gathers

/-- The step lemma for the statements of a file. -/
theorem Ledger.made (h : Ledger ls w Holds) {st : Stmt} (hs : Holds (s.stmts.flatMap (Stmt.walk w)) s)
    (hst : Parse.stmt s = .ok st t) :
    Holds ((t.stmts ++ [st]).flatMap (Stmt.walk w)) { t with stmts := t.stmts ++ [st] } := by
  rw [flatMap_made hst]
  exact h.steer _ _ _ _ _ _ (Gathers.stmt h s st t hs hst)

end Parse

end RoseLang
