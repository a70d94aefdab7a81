import RoseLang.Proofs.Parse.Layout.Expr

/-!
# Declarations, statements and files look at the order of positions only

The rest of the parsers, up to the one for a whole file: the states in which two parses end are alike if those
are in which they start.
-/

namespace RoseLang.Parse

variable {P : Pos → Pos → Prop}

theorem isEmpty_eq {α β : Type} {R : α → β → Prop} {as : List α} {bs : List β} (h : List.Forall₂ R as bs) :
    as.isEmpty = bs.isEmpty := by
  cases h with
  | nil | cons => rfl

/-- Where the fault of a spec is corresponds too, as does the surplus value if that is the fault. -/
theorem rel_shapeFault? (keyword : DeclKeyword) (index : Nat) {pos pos' : Pos} {names names' : List Ident}
    {type type' : Option Expr} {values values' : List Expr} (hpos : P pos pos')
    (hnames : List.Forall₂ (Ident.Alike P) names names') (htype : Option.Rel (Expr.Alike P) type type')
    (hvalues : List.Forall₂ (Expr.Alike P) values values') :
    Option.Rel (fun f f' => P f.1 f'.1 ∧ f.2.Alike P f'.2) (shapeFault? keyword index pos names type values)
      (shapeFault? keyword index pos' names' type' values') := by
  have hat : ∀ {fault : Fault}, fault.cause = none →
      Option.Rel (fun f f' : Pos × Fault => P f.1 f'.1 ∧ f.2.Alike P f'.2) (some (pos, fault)) (some (pos', fault)) :=
    fun h => .some ⟨hpos, .same h⟩
  have hsome : type.isSome = type'.isSome := by
    cases htype with
    | none | some => rfl
  rw [shapeFault?.eq_def, shapeFault?.eq_def, ← isEmpty_eq hvalues, ← hnames.length_eq, ← hvalues.length_eq,
    ← Option.not_isSome, ← Option.not_isSome, ← hsome]
  split
  · cases keyword with
    | varWord =>
      dsimp only
      split
      · exact hat rfl
      · exact .none
    | letWord => exact hat rfl
    | constWord =>
      dsimp only
      split
      · exact hat rfl
      · exact .none
  · split
    · refine hat ?_
      split <;> rfl
    · generalize values[names.length]? = surplus, values'[names.length]? = surplus',
        rel_getElem? hvalues names.length = hsurplus
      cases hsurplus with
      | none => exact .none
      | some he => exact .some ⟨he.pos, .same rfl⟩

namespace Sim

theorem nameList : Sim P (List.Forall₂ (Ident.Alike P)) nameList nameList := by
  rw [nameList_eq]
  exact .bind (.commaList .ident) fun _ _ hlist => .pure hlist

theorem declare (kind : ObjectKind) (decl : NodeId) (index : Nat) {i i' : Ident} (hi : i.Alike P i') :
    Sim P (Ident.Alike P) (declare kind decl index i) (declare kind decl index i') := by
  intro s s' h
  obtain ⟨hname, hagain, hnames⟩ := h.names.declare hi kind decl index
  have hfault : Option.Rel (fun f f' : Pos × Fault => P f.1 f'.1 ∧ f.2.Alike P f'.2)
      ((s.names.declare i kind decl index).2.1.map fun r => (r.pos, .redeclared r))
      ((s'.names.declare i' kind decl index).2.1.map fun r => (r.pos, .redeclared r)) := by
    generalize (s.names.declare i kind decl index).2.1 = again,
      (s'.names.declare i' kind decl index).2.1 = again' at hagain
    cases hagain with
    | none => exact .none
    | some hr => exact .some ⟨hr.pos, .redeclared hr⟩
  rw [declare_apply, declare_apply]
  exact Sim.bind (.reportAny hfault) (fun _ _ _ => .pure hname) _ _ { h with names := hnames }

section
variable (hP : KeepsOrder P)
include hP

theorem initialValues : Sim P (List.Forall₂ (Expr.Alike P)) initialValues initialValues := by
  refine .bind .currentKind ?_
  rintro kind _ rfl
  exact .ite (fun _ => .bind .next fun _ _ _ => .rhsList hP) fun _ => .pure .nil

theorem spec (keyword : DeclKeyword) (index : Nat) :
    Sim P (Spec.Alike P) (spec keyword index) (spec keyword index) := by
  refine .bind .currentPos fun _ _ hpos => .bind .nameList fun _ _ hnames => .bind (.type? hP) fun _ _ htype =>
    .bind (.initialValues hP) fun _ _ hvalues => .bind .expectSemi fun _ _ _ =>
      .bind (.reportAny (rel_shapeFault? keyword index hpos hnames htype hvalues)) fun _ _ _ => .bind .freshId ?_
  rintro id _ rfl
  exact .bind (.mapM hnames fun _ _ hi => .declare _ id index hi) fun _ _ hnames =>
    .pure ⟨rfl, hnames, htype, hvalues⟩

theorem specs (keyword : DeclKeyword) (index n : Nat) :
    Sim P (List.Forall₂ (Spec.Alike P)) (specs keyword index n) (specs keyword index n) := by
  induction n generalizing index with
  | zero => exact .pure .nil
  | succ n ih =>
    refine .bind .currentKind ?_
    rintro kind _ rfl
    split
    · exact .pure .nil
    · exact .pure .nil
    · exact .bind (.spec hP keyword index) fun _ _ hfirst => .bind (ih _) fun _ _ hothers =>
        .pure (.cons hfirst hothers)

theorem decl (keyword : DeclKeyword) : Sim P (Decl.Alike P) (decl keyword) (decl keyword) := by
  refine .bind (.expect _) fun _ _ hkeyword => .bind .currentKind ?_
  rintro kind _ rfl
  refine .ite (fun _ => .bind (.expect _) fun _ _ hlparen => .bounded (.specs hP keyword 0) fun _ _ hentries =>
    .bind (.expect _) fun _ _ hrparen => .bind .expectSemi fun _ _ _ => .bind .freshId ?_)
    fun _ => .bind (.spec hP keyword 0) fun _ _ hentry => .bind .freshId ?_
  · rintro id _ rfl
    exact .pure (.group hkeyword hlparen hentries hrparen)
  · rintro id _ rfl
    exact .pure (.single hkeyword hentry)

theorem simple : Sim P (fun f f' => ∀ id, (f id).Alike P (f' id)) simple simple := by
  refine .bind (.lhsList hP) ?_
  rintro ⟨first, others⟩ ⟨first', others'⟩ hlist
  obtain ⟨hfirst, hothers⟩ := List.forall₂_cons.mp hlist
  refine .bind .currentToken fun t t' ht => ?_
  rw [← ht.kind]
  cases AssignOp.ofToken? t.kind with
  | some op =>
    exact .bind .next fun _ _ _ => .bind (.rhsList hP) fun _ _ hright => .pure fun id => .assign hlist ht.pos hright
  | none =>
    dsimp only
    rw [← isEmpty_eq hothers]
    refine .bind (.reportAny ?_) fun _ _ _ => ?_
    · split
      · exact .none
      · exact .some ⟨hfirst.pos, .same rfl⟩
    · split
      · exact .bind .next fun _ _ _ => .pure fun id => .incDec hfirst ht.pos
      · exact .bind .next fun _ _ _ => .pure fun id => .incDec hfirst ht.pos
      · exact .pure fun id => .expr hfirst

theorem stmt : Sim P (Stmt.Alike P) stmt stmt := by
  refine .bind .currentToken fun t t' ht => ?_
  have himplicit : t.isImplicitSemi = t'.isImplicitSemi := by
    rw [Token.isImplicitSemi, Token.isImplicitSemi, ht.kind, ht.text]
  rw [← ht.kind, ← himplicit]
  cases DeclKeyword.ofToken? t.kind with
  | some keyword =>
    refine .bind (.decl hP keyword) fun _ _ hd => .bind .freshId ?_
    rintro id _ rfl
    exact .pure (.decl hd)
  | none =>
    refine .ite (fun _ => .bind (.simple hP) fun _ _ hmade => .bind .expectSemi fun _ _ _ => .bind .freshId ?_)
      fun _ => .ite (fun _ => .bind .next fun _ _ _ => .bind .freshId ?_)
        fun _ => .bind (.skipped hP _ (.expected _)) fun _ _ hspan => .bind .freshId ?_
    · rintro id _ rfl
      exact .pure (hmade id)
    · rintro id _ rfl
      exact .pure (.empty ht.pos)
    · rintro id _ rfl
      exact .pure (.bad hspan.1 hspan.2)

theorem stmts (n : Nat) : Sim P (fun _ _ => True) (stmts n) (stmts n) := by
  induction n with
  | zero => exact .pure trivial
  | succ n ih =>
    refine .bind .currentKind ?_
    rintro kind _ rfl
    exact .ite (fun _ => .pure trivial) fun _ => .bind (.stmt hP) fun _ _ hmade =>
      .bind (.modify fun _ _ h => { h with stmts := List.rel_append h.stmts (.cons hmade .nil) }) fun _ _ _ => ih

end

end Sim

theorem State.Alike.endState {α α' : Type} {V : α → α' → Prop} {p : Parser α} {p' : Parser α'} (hp : Sim P V p p')
    {s s' : State} (h : s.Alike P s') : State.Alike P (Parse.endState p s) (Parse.endState p' s') := by
  have hrun := hp s s' h
  rw [Parse.endState, Parse.endState]
  generalize p s = out, p' s' = out' at hrun
  cases hrun with
  | ok _ h => exact h
  | error h => exact h

end RoseLang.Parse
