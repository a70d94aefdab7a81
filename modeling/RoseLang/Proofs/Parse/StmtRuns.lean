import RoseLang.Proofs.Parse.Step

/-!
# Runs of the parsers for statements

What the parsers for lists, declarations and statements have done when they come to their end: one constructor for
each way, with the states in between. Their equations are used here once; a property of all statements that are read
is then a case for each way, and an induction for each loop.
-/

namespace RoseLang.Parse

variable {α : Type} {s s' : State}

/-! ### Lists -/

/-- After commas `item` reads the rest of a list, at most `n` of them. -/
inductive CommaRuns (item : Parser α) : Nat → State → List α → State → Prop where
  | full {s : State} : CommaRuns item 0 s [] s
  | stop {n : Nat} {s : State} (hkind : s.token.kind ≠ .comma) : CommaRuns item n s [] s
  | more {n : Nat} {s t s' : State} {a : α} {as : List α} (hcomma : s.token.kind = .comma)
      (hitem : item s.next = .ok a t) (hrest : CommaRuns item n t as s') : CommaRuns item (n + 1) s (a :: as) s'

theorem CommaRuns.of_ok {item : Parser α} {n : Nat} {as : List α} (h : commaLoop item n s = .ok as s') :
    CommaRuns item n s as s' := by
  induction n generalizing s as with
  | zero =>
    obtain ⟨rfl, rfl⟩ := pure_eq_ok.mp h
    exact .full
  | succ n ih =>
    rw [commaLoop, currentKind_bind] at h
    split at h
    · next hcomma =>
      rw [next_bind] at h
      obtain ⟨a, t, hitem, h⟩ := bind_eq_ok.mp h
      obtain ⟨as, u, hrest, h⟩ := bind_eq_ok.mp h
      obtain ⟨rfl, rfl⟩ := pure_eq_ok.mp h
      exact .more hcomma hitem (ih hrest)
    · next hkind =>
      obtain ⟨rfl, rfl⟩ := pure_eq_ok.mp h
      exact .stop hkind

theorem CommaRuns.ok {item : Parser α} {n : Nat} {as : List α} (h : CommaRuns item n s as s') :
    commaLoop item n s = .ok as s' := by
  induction h with
  | full => rfl
  | @stop n s hkind =>
    cases n with
    | zero => rfl
    | succ n =>
      rw [commaLoop, currentKind_bind, if_neg hkind]
      rfl
  | more hcomma hitem _ ih =>
    rw [commaLoop, currentKind_bind, if_pos hcomma, next_bind, bind_of_ok hitem, bind_of_ok ih]
    rfl

theorem commaList_eq_ok {item : Parser α} {list : α × List α} :
    commaList item s = .ok list s' ↔
      ∃ t, item s = .ok list.1 t ∧ CommaRuns item t.rest.length t list.2 s' := by
  rw [commaList, bind_eq_ok]
  constructor
  · rintro ⟨first, t, hfirst, h⟩
    rw [get_bind] at h
    obtain ⟨others, u, hothers, h⟩ := bind_eq_ok.mp h
    obtain ⟨rfl, rfl⟩ := pure_eq_ok.mp h
    exact ⟨t, hfirst, .of_ok hothers⟩
  · rintro ⟨t, hfirst, hothers⟩
    refine ⟨list.1, t, hfirst, ?_⟩
    rw [get_bind, bind_of_ok hothers.ok]
    rfl

theorem nameList_eq_ok {names : List Ident} :
    nameList s = .ok names s' ↔
      ∃ first others, names = first :: others ∧ commaList ident s = .ok (first, others) s' := by
  rw [nameList_eq, bind_eq_ok]
  constructor
  · rintro ⟨⟨first, others⟩, t, hlist, h⟩
    obtain ⟨rfl, rfl⟩ := pure_eq_ok.mp h
    exact ⟨first, others, rfl, hlist⟩
  · rintro ⟨first, others, rfl, hlist⟩
    exact ⟨_, s', hlist, rfl⟩

theorem rhsList_eq_ok {es : List Expr} :
    rhsList s = .ok es s' ↔ ∃ first others t, es = first :: others ∧
      commaList (expr false) { s with inRhs := true } = .ok (first, others) t ∧ s' = { t with inRhs := s.inRhs } := by
  rw [rhsList, exprList_eq, bind_eq_ok]
  constructor
  · rintro ⟨⟨first, others⟩, t, hlist, h⟩
    obtain ⟨rfl, rfl⟩ := pure_eq_ok.mp h
    obtain ⟨u, hrun, rfl⟩ := withRhs_eq_ok.mp hlist
    exact ⟨first, others, u, rfl, hrun, rfl⟩
  · rintro ⟨first, others, t, rfl, hlist, rfl⟩
    exact ⟨_, _, withRhs_eq_ok.mpr ⟨t, hlist, rfl⟩, rfl⟩

/-- The left-hand side of a statement: before a colon its names go on waiting, or else they are looked up. -/
inductive LhsRuns (s : State) : Expr × List Expr → State → Prop where
  | waiting {t : State} {first : Expr} {others : List Expr}
      (hlist : commaList (expr true) { s with inRhs := false } = .ok (first, others) t)
      (hcolon : t.token.kind = .colon) : LhsRuns s (first, others) { t with inRhs := s.inRhs }
  | lookedUp {t u s' : State} {first first' : Expr} {others others' : List Expr}
      (hlist : commaList (expr true) { s with inRhs := false } = .ok (first, others) t)
      (hkind : t.token.kind ≠ .colon) (hfirst : resolveExpr first { t with inRhs := s.inRhs } = .ok first' u)
      (hothers : others.mapM resolveExpr u = .ok others' s') : LhsRuns s (first', others') s'

theorem LhsRuns.of_ok {list : Expr × List Expr} (h : lhsList s = .ok list s') : LhsRuns s list s' := by
  rw [lhsList, exprList_eq] at h
  obtain ⟨⟨first, others⟩, t, hraw, h⟩ := bind_eq_ok.mp h
  obtain ⟨u, hlist, rfl⟩ := withRhs_eq_ok.mp hraw
  dsimp only at h
  rw [currentKind_bind] at h
  split at h
  · next hcolon =>
    obtain ⟨rfl, rfl⟩ := pure_eq_ok.mp h
    exact .waiting hlist hcolon
  · next hkind =>
    obtain ⟨first', v, hfirst, h⟩ := bind_eq_ok.mp h
    obtain ⟨others', w, hothers, h⟩ := bind_eq_ok.mp h
    obtain ⟨rfl, rfl⟩ := pure_eq_ok.mp h
    exact .lookedUp hlist hkind hfirst hothers

/-! ### Declarations -/

theorem initialValues_eq_ok {values : List Expr} :
    initialValues s = .ok values s' ↔
      s.token.kind = .assign ∧ rhsList s.next = .ok values s' ∨
        s.token.kind ≠ .assign ∧ values = [] ∧ s' = s := by
  rw [initialValues, currentKind_bind]
  split
  · next hassign => simp [hassign]
  · next hassign => simp [hassign, pure_eq_ok, eq_comm]

/-- The parts of a spec are read in their order. It is numbered after them, and its names are declared last. -/
inductive SpecRuns (keyword : DeclKeyword) (index : Nat) (s : State) : Spec → State → Prop where
  | mk {t u v w x s' : State} {names names' : List Ident} {type : Option Expr} {values : List Expr}
      (hnames : nameList s = .ok names t) (htype : type? t = .ok type u) (hvalues : initialValues u = .ok values v)
      (hclose : expectSemi v = .ok () w)
      (hshape : reportAny (shapeFault? keyword index s.token.pos names type values) w = .ok () x)
      (hdeclare : names.mapM (declare (objectKind keyword) x.nextId index) { x with nextId := x.nextId + 1 } =
        .ok names' s') : SpecRuns keyword index s ⟨x.nextId, names', type, values⟩ s'

theorem SpecRuns.of_ok {keyword : DeclKeyword} {index : Nat} {sp : Spec} (h : spec keyword index s = .ok sp s') :
    SpecRuns keyword index s sp s' := by
  rw [spec, currentPos_bind] at h
  obtain ⟨names, t, hnames, h⟩ := bind_eq_ok.mp h
  obtain ⟨type, u, htype, h⟩ := bind_eq_ok.mp h
  obtain ⟨values, v, hvalues, h⟩ := bind_eq_ok.mp h
  obtain ⟨_, w, hclose, h⟩ := bind_eq_ok.mp h
  obtain ⟨_, x, hshape, h⟩ := bind_eq_ok.mp h
  rw [freshId_bind] at h
  obtain ⟨names', y, hdeclare, h⟩ := bind_eq_ok.mp h
  obtain ⟨rfl, rfl⟩ := pure_eq_ok.mp h
  exact .mk hnames htype hvalues hclose hshape hdeclare

theorem SpecRuns.ok {keyword : DeclKeyword} {index : Nat} {sp : Spec} (h : SpecRuns keyword index s sp s') :
    spec keyword index s = .ok sp s' := by
  obtain ⟨hnames, htype, hvalues, hclose, hshape, hdeclare⟩ := h
  rw [spec, currentPos_bind, bind_of_ok hnames, bind_of_ok htype, bind_of_ok hvalues, bind_of_ok hclose,
    bind_of_ok hshape, freshId_bind, bind_of_ok hdeclare]
  rfl

/-- The specs of a group are read, at most `n` of them; `index` is the place of the first one. -/
inductive SpecsRuns (keyword : DeclKeyword) : Nat → Nat → State → List Spec → State → Prop where
  | full {index : Nat} {s : State} : SpecsRuns keyword index 0 s [] s
  | stop {index n : Nat} {s : State} (hend : s.token.kind = .rparen ∨ s.token.kind = .eof) :
      SpecsRuns keyword index n s [] s
  | more {index n : Nat} {s t s' : State} {first : Spec} {others : List Spec}
      (hgo : ¬ (s.token.kind = .rparen ∨ s.token.kind = .eof)) (hfirst : spec keyword index s = .ok first t)
      (hrest : SpecsRuns keyword (index + 1) n t others s') : SpecsRuns keyword index (n + 1) s (first :: others) s'

theorem SpecsRuns.of_ok {keyword : DeclKeyword} {index n : Nat} {entries : List Spec}
    (h : specs keyword index n s = .ok entries s') : SpecsRuns keyword index n s entries s' := by
  induction n generalizing index s entries with
  | zero =>
    obtain ⟨rfl, rfl⟩ := pure_eq_ok.mp h
    exact .full
  | succ n ih =>
    by_cases hend : s.token.kind = .rparen ∨ s.token.kind = .eof
    · rw [specs_of_end hend] at h
      cases h
      exact .stop hend
    · have hkinds := not_or.mp hend
      rw [specs_succ hkinds.1 hkinds.2] at h
      obtain ⟨first, t, hfirst, h⟩ := bind_eq_ok.mp h
      obtain ⟨others, u, hothers, h⟩ := bind_eq_ok.mp h
      obtain ⟨rfl, rfl⟩ := pure_eq_ok.mp h
      exact .more hend hfirst (ih hothers)

theorem SpecsRuns.ok {keyword : DeclKeyword} {index n : Nat} {entries : List Spec}
    (h : SpecsRuns keyword index n s entries s') : specs keyword index n s = .ok entries s' := by
  induction h with
  | full => rfl
  | stop hend => exact specs_of_end hend
  | more hgo hfirst hrest ih =>
    rw [specs_succ (not_or.mp hgo).1 (not_or.mp hgo).2, bind_of_ok hfirst, bind_of_ok ih]
    rfl

/-- A declaration is a group in parentheses or a single spec. -/
inductive DeclRuns (keyword : DeclKeyword) (s : State) : Decl → State → Prop where
  | group {t u v w x : State} {keywordPos lparen rparen : Pos} {entries : List Spec}
      (hkeyword : expect keyword.token s = .ok keywordPos t) (hkind : t.token.kind = .lparen)
      (hlparen : expect .lparen t = .ok lparen u) (hentries : specs keyword 0 u.rest.length u = .ok entries v)
      (hrparen : expect .rparen v = .ok rparen w) (hclose : expectSemi w = .ok () x) :
      DeclRuns keyword s (.specs x.nextId keyword keywordPos lparen entries rparen)
        { x with nextId := x.nextId + 1 }
  | single {t u : State} {keywordPos : Pos} {entry : Spec} (hkeyword : expect keyword.token s = .ok keywordPos t)
      (hkind : t.token.kind ≠ .lparen) (hentry : spec keyword 0 t = .ok entry u) :
      DeclRuns keyword s (.specs u.nextId keyword keywordPos .none [entry] .none) { u with nextId := u.nextId + 1 }

theorem DeclRuns.of_ok {keyword : DeclKeyword} {d : Decl} (h : decl keyword s = .ok d s') :
    DeclRuns keyword s d s' := by
  obtain ⟨keywordPos, t, hkeyword, h⟩ := bind_eq_ok.mp h
  rw [currentKind_bind] at h
  split at h
  · next hkind =>
    obtain ⟨lparen, u, hlparen, h⟩ := bind_eq_ok.mp h
    rw [get_bind] at h
    obtain ⟨entries, v, hentries, h⟩ := bind_eq_ok.mp h
    obtain ⟨rparen, w, hrparen, h⟩ := bind_eq_ok.mp h
    obtain ⟨_, x, hclose, h⟩ := bind_eq_ok.mp h
    rw [freshId_bind, pure_eq_ok] at h
    obtain ⟨rfl, rfl⟩ := h
    exact .group hkeyword hkind hlparen hentries hrparen hclose
  · next hkind =>
    obtain ⟨entry, u, hentry, h⟩ := bind_eq_ok.mp h
    rw [freshId_bind, pure_eq_ok] at h
    obtain ⟨rfl, rfl⟩ := h
    exact .single hkeyword hkind hentry

theorem DeclRuns.ok {keyword : DeclKeyword} {d : Decl} (h : DeclRuns keyword s d s') : decl keyword s = .ok d s' := by
  cases h with
  | group hkeyword hkind hlparen hentries hrparen hclose =>
    rw [decl, bind_of_ok hkeyword, currentKind_bind, if_pos hkind, bind_of_ok hlparen, get_bind, bind_of_ok hentries,
      bind_of_ok hrparen, bind_of_ok hclose, freshId_bind]
    rfl
  | single hkeyword hkind hentry =>
    rw [decl, bind_of_ok hkeyword, currentKind_bind, if_neg hkind, bind_of_ok hentry, freshId_bind]
    rfl

/-! ### Statements -/

/-- An assignment keeps all its expressions, any other statement only the first one on its left. -/
inductive SimpleRuns (s : State) : (NodeId → Stmt) → State → Prop where
  | assign {t s' : State} {first : Expr} {others right : List Expr} {op : AssignOp}
      (hlist : lhsList s = .ok (first, others) t) (hassign : AssignOp.ofToken? t.token.kind = some op)
      (hright : rhsList t.next = .ok right s') :
      SimpleRuns s (fun id => .assign id (first :: others) op t.token.pos right) s'
  | incDec {t u : State} {first : Expr} {others : List Expr} {increment : Bool}
      (hlist : lhsList s = .ok (first, others) t) (hkind : t.token.kind = if increment then .inc else .dec)
      (hone : reportAny (if others.isEmpty then none else some (first.pos, .severalExpressions)) t = .ok () u) :
      SimpleRuns s (fun id => .incDec id first t.token.pos increment) u.next
  | other {t u : State} {first : Expr} {others : List Expr} (hlist : lhsList s = .ok (first, others) t)
      (hassign : AssignOp.ofToken? t.token.kind = none)
      (hincDec : ∀ increment : Bool, t.token.kind ≠ if increment then .inc else .dec)
      (hone : reportAny (if others.isEmpty then none else some (first.pos, .severalExpressions)) t = .ok () u) :
      SimpleRuns s (fun id => .expr id first) u

theorem SimpleRuns.of_ok {made : NodeId → Stmt} (h : simple s = .ok made s') : SimpleRuns s made s' := by
  obtain ⟨⟨first, others⟩, t, hlist, -⟩ : ∃ list t, lhsList s = .ok list t ∧ _ := bind_eq_ok.mp h
  cases hassign : AssignOp.ofToken? t.token.kind with
  | some op =>
    rw [simple_of_assign hlist hassign] at h
    obtain ⟨right, u, hright, h⟩ := bind_eq_ok.mp h
    obtain ⟨rfl, rfl⟩ := pure_eq_ok.mp h
    exact .assign hlist hassign hright
  | none =>
    by_cases hincDec : ∃ increment : Bool, t.token.kind = if increment then .inc else .dec
    · obtain ⟨increment, hkind⟩ := hincDec
      rw [simple_of_incDec hlist increment hkind] at h
      obtain ⟨_, u, hone, h⟩ := bind_eq_ok.mp h
      rw [next_bind, pure_eq_ok] at h
      obtain ⟨rfl, rfl⟩ := h
      exact .incDec hlist hkind hone
    · rw [simple_of_other hlist hassign (not_exists.mp hincDec)] at h
      obtain ⟨_, u, hone, h⟩ := bind_eq_ok.mp h
      obtain ⟨rfl, rfl⟩ := pure_eq_ok.mp h
      exact .other hlist hassign (not_exists.mp hincDec) hone

theorem SimpleRuns.ok {made : NodeId → Stmt} (h : SimpleRuns s made s') : simple s = .ok made s' := by
  cases h with
  | assign hlist hassign hright =>
    rw [simple_of_assign hlist hassign, bind_of_ok hright]
    rfl
  | @incDec t u first others increment hlist hkind hone =>
    rw [simple_of_incDec hlist increment hkind, bind_of_ok hone]
    rfl
  | other hlist hassign hincDec hone =>
    rw [simple_of_other hlist hassign hincDec, bind_of_ok hone]
    rfl

/-- The first token decides which statement is read. -/
inductive StmtRuns (s : State) : Stmt → State → Prop where
  | keyword {t : State} {keyword : DeclKeyword} {d : Decl} (hkeyword : DeclKeyword.ofToken? s.token.kind = some keyword)
      (hdecl : decl keyword s = .ok d t) : StmtRuns s (.decl t.nextId d) { t with nextId := t.nextId + 1 }
  | semi (hsemi : s.token.kind = .semi) :
      StmtRuns s (.empty s.next.nextId s.token.pos s.token.isImplicitSemi)
        { s.next with nextId := s.next.nextId + 1 }
  | operand {t u : State} {made : NodeId → Stmt} (hoperand : startsOperand s.token.kind = true)
      (hsimple : simple s = .ok made t) (hclose : expectSemi t = .ok () u) :
      StmtRuns s (made u.nextId) { u with nextId := u.nextId + 1 }
  | other {t : State} {span : Span} (hkeyword : DeclKeyword.ofToken? s.token.kind = none)
      (hoperand : startsOperand s.token.kind = false) (hsemi : s.token.kind ≠ .semi)
      (hskipped : skipped statementStarts (expected .statement) s = .ok span t) :
      StmtRuns s (.bad t.nextId span.start span.stop) { t with nextId := t.nextId + 1 }

theorem StmtRuns.of_ok {st : Stmt} (h : stmt s = .ok st s') : StmtRuns s st s' := by
  cases hkeyword : DeclKeyword.ofToken? s.token.kind with
  | some keyword =>
    rw [stmt_of_keyword hkeyword] at h
    obtain ⟨d, t, hdecl, h⟩ := bind_eq_ok.mp h
    rw [freshId_bind, pure_eq_ok] at h
    obtain ⟨rfl, rfl⟩ := h
    exact .keyword hkeyword hdecl
  | none =>
    by_cases hsemi : s.token.kind = .semi
    · rw [stmt_of_semi hsemi] at h
      cases h
      exact .semi hsemi
    · cases hoperand : startsOperand s.token.kind with
      | true =>
        rw [stmt_of_operand hoperand] at h
        obtain ⟨made, t, hsimple, h⟩ := bind_eq_ok.mp h
        obtain ⟨_, u, hclose, h⟩ := bind_eq_ok.mp h
        rw [freshId_bind, pure_eq_ok] at h
        obtain ⟨rfl, rfl⟩ := h
        exact .operand hoperand hsimple hclose
      | false =>
        rw [stmt_of_other hkeyword hoperand hsemi] at h
        obtain ⟨span, t, hskipped, h⟩ := bind_eq_ok.mp h
        rw [freshId_bind, pure_eq_ok] at h
        obtain ⟨rfl, rfl⟩ := h
        exact .other hkeyword hoperand hsemi hskipped

theorem StmtRuns.ok {st : Stmt} (h : StmtRuns s st s') : stmt s = .ok st s' := by
  cases h with
  | keyword hkeyword hdecl =>
    rw [stmt_of_keyword hkeyword, bind_of_ok hdecl]
    rfl
  | semi hsemi => exact stmt_of_semi hsemi
  | operand hoperand hsimple hclose =>
    rw [stmt_of_operand hoperand, bind_of_ok hsimple, bind_of_ok hclose]
    rfl
  | other hkeyword hoperand hsemi hskipped =>
    rw [stmt_of_other hkeyword hoperand hsemi, bind_of_ok hskipped]
    rfl

/-- What is made of an expression takes the number that it is given. -/
theorem id_simple {made : NodeId → Stmt} (h : simple s = .ok made s') (id : NodeId) : (made id).id = id := by
  cases SimpleRuns.of_ok h <;> rfl

/-- A statement is numbered after all its parts. -/
theorem nextId_stmt {st : Stmt} (h : stmt s = .ok st s') : s'.nextId = st.id + 1 := by
  cases StmtRuns.of_ok h with
  | keyword | semi | other => rfl
  | operand hoperand hsimple hclose => rw [id_simple hsimple]

end RoseLang.Parse
