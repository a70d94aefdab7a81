import RoseLang.Proofs.Parse.Layout.State

/-!
# Every parser looks at the order of positions only

One lemma for each parser: from states that are alike it makes trees that are alike.
-/

namespace RoseLang.Parse.Sim

variable {P : Pos → Pos → Prop} {α : Type}

/-! ### Elementary steps -/

theorem currentToken : Sim P (Token.Alike P) currentToken currentToken := .look fun _ _ h => h.token

theorem currentKind : Sim P Eq currentKind currentKind := .look fun _ _ h => h.token.kind

theorem currentPos : Sim P P currentPos currentPos := .look fun _ _ h => h.token.pos

theorem operator? : Sim P Eq operator? operator? :=
  .look fun s s' h => by rw [h.inRhs, h.token.kind]

theorem roomLeft : Sim P Eq roomLeft roomLeft := .look fun _ _ h => by rw [h.depth]

theorem next : Sim P (fun _ _ => True) next next := .modify fun _ _ h => h.next

theorem enter : Sim P (fun _ _ => True) enter enter :=
  .modify fun _ _ h => { h with depth := congrArg (· + 1) h.depth }

theorem leave : Sim P (fun _ _ => True) leave leave :=
  .modify fun _ _ h => { h with depth := congrArg (· - 1) h.depth }

theorem freshId : Sim P Eq freshId freshId :=
  fun _ _ h => .ok h.nextId { h with nextId := congrArg (· + 1) h.nextId }

theorem report {pos pos' : Pos} {fault fault' : Fault} (hpos : P pos pos') (hfault : fault.Alike P fault') :
    Sim P (fun _ _ => True) (report pos fault) (report pos' fault') := by
  intro s s' h
  have hkeep : State.Alike P (s.keep ⟨pos, fault⟩) (s'.keep ⟨pos', fault'⟩) := h.keep ⟨hpos, hfault⟩
  rw [Parse.report, Parse.report, get_bind, get_bind, ← h.allErrors]
  cases hall : s.allErrors with
  | true => exact .ok trivial hkeep
  | false =>
    rw [← h.repeatsLine hall hpos, ← h.isFull]
    cases s.repeatsLine pos with
    | true => exact .ok trivial h
    | false =>
      cases s.isFull with
      | true => exact .error h
      | false => exact .ok trivial hkeep

theorem resolve {i i' : Ident} (hi : i.Alike P i') :
    Sim P (fun a a' => a.1.Alike P a'.1 ∧ a.2 = a'.2) (resolve i) (resolve i') := by
  intro s s' h
  obtain ⟨hident, hobject, hnames⟩ := h.names.resolve hi true
  exact .ok ⟨hident, hobject⟩ { h with names := hnames }

theorem reportAny {fault fault' : Option (Pos × Fault)}
    (h : Option.Rel (fun f f' => P f.1 f'.1 ∧ f.2.Alike P f'.2) fault fault') :
    Sim P (fun _ _ => True) (reportAny fault) (reportAny fault') := by
  cases h with
  | none => exact .pure trivial
  | some hf => exact .report hf.1 hf.2

theorem expected (what : Expectation) : Sim P (fun _ _ => True) (expected what) (expected what) := by
  refine .bind .currentToken fun t t' ht => .report ht.pos ?_
  rw [ht.kind, ht.text]
  exact .same rfl

theorem require (kind : Kind) : Sim P (fun _ _ => True) (require kind) (require kind) := by
  refine .bind .currentKind ?_
  rintro found _ rfl
  exact .ite (fun _ => .pure trivial) fun _ => .expected _

theorem expect (kind : Kind) : Sim P P (expect kind) (expect kind) :=
  .bind .currentPos fun _ _ hpos => .bind (.require kind) fun _ _ _ => .bind .next fun _ _ _ => .pure hpos

theorem expectSemi : Sim P (fun _ _ => True) expectSemi expectSemi := by
  refine .bind .currentKind ?_
  rintro found _ rfl
  split
  · exact .pure trivial
  · exact .pure trivial
  · exact .next
  · exact .expected _

section
variable (hP : KeepsOrder P)
include hP

theorem skipTo (kinds : List Kind) : Sim P (fun _ _ => True) (skipTo kinds) (skipTo kinds) :=
  .modify fun _ _ h => h.skipTo hP kinds

theorem skipped (kinds : List Kind) {complaint : Parser Unit}
    (h : Sim P (fun _ _ => True) complaint complaint) :
    Sim P (fun span span' => P span.start span'.start ∧ P span.stop span'.stop) (skipped kinds complaint)
      (skipped kinds complaint) :=
  .bind .currentPos fun _ _ hstart => .bind h fun _ _ _ => .bind (.skipTo hP kinds) fun _ _ _ =>
    .bind .currentPos fun _ _ hstop => .pure ⟨hstart, hstop⟩

theorem skippedExpr (kinds : List Kind) {complaint : Parser Unit}
    (h : Sim P (fun _ _ => True) complaint complaint) :
    Sim P (Expr.Alike P) (skippedExpr kinds complaint) (skippedExpr kinds complaint) := by
  refine .bind (.skipped hP kinds h) fun span span' hspan => .bind .freshId ?_
  rintro id _ rfl
  exact .pure (.bad hspan.1 hspan.2)

theorem tooDeep : Sim P (Expr.Alike P) tooDeep tooDeep :=
  .skippedExpr hP _ (.bind .currentPos fun _ _ hpos => .report hpos (.same rfl))

end

theorem resolveExpr {e e' : Expr} (he : e.Alike P e') : Sim P (Expr.Alike P) (resolveExpr e) (resolveExpr e') := by
  cases he with
  | ident hi => exact .bind (.resolve hi) fun _ _ h => .pure (.ident h.1)
  | bad hstart hstop => exact .pure (.bad hstart hstop)
  | literal hl => exact .pure (.literal hl)
  | paren hlparen hinner hrparen => exact .pure (.paren hlparen hinner hrparen)
  | unary hopPos hoperand => exact .pure (.unary hopPos hoperand)
  | binary hopPos hleft hright => exact .pure (.binary hopPos hleft hright)

theorem resolveIf (now : Bool) {e e' : Expr} (he : e.Alike P e') :
    Sim P (Expr.Alike P) (resolveIf now e) (resolveIf now e') :=
  .ite (fun _ => .resolveExpr he) fun _ => .pure he

/-! ### Lists -/

section
variable {V : α → α → Prop} {item : Parser α}

theorem commaLoop (hitem : Sim P V item item) (n : Nat) :
    Sim P (List.Forall₂ V) (commaLoop item n) (commaLoop item n) := by
  induction n with
  | zero => exact .pure .nil
  | succ n ih =>
    refine .bind .currentKind ?_
    rintro kind _ rfl
    exact .ite (fun _ => .bind .next fun _ _ _ => .bind hitem fun _ _ ha => .bind ih fun _ _ has =>
      .pure (.cons ha has)) fun _ => .pure .nil

theorem commaList (hitem : Sim P V item item) :
    Sim P (fun list list' => List.Forall₂ V (list.1 :: list.2) (list'.1 :: list'.2)) (commaList item)
      (commaList item) :=
  .bind hitem fun _ _ hfirst => .bounded (.commaLoop hitem) fun _ _ hothers => .pure (.cons hfirst hothers)

end

/-! ### Expressions -/

theorem ident : Sim P (Ident.Alike P) ident ident := by
  refine .bind .currentToken fun t t' ht => ?_
  rw [← ht.kind]
  refine .ite (fun _ => .bind .next fun _ _ _ => .bind .freshId ?_)
    fun _ => .bind (.expect _) fun _ _ hpos => .bind .freshId ?_
  · rintro id _ rfl
    exact .pure ⟨rfl, ht.pos, ht.text, rfl⟩
  · rintro id _ rfl
    exact .pure ⟨rfl, hpos, rfl, rfl⟩

section
variable (hP : KeepsOrder P)
include hP

theorem leaf (lhs : Bool) : Sim P (Expr.Alike P) (leaf lhs) (leaf lhs) := by
  refine .bind .currentToken fun t t' ht => ?_
  rw [← ht.kind]
  cases LiteralKind.ofToken? t.kind with
  | some kind =>
    refine .bind .next fun _ _ _ => .bind .freshId ?_
    rintro id _ rfl
    exact .pure (.literal ⟨ht.pos, rfl, ht.text⟩)
  | none =>
    refine .ite (fun _ => .bind .ident fun name name' hname => .bind .freshId ?_)
      fun _ => .skippedExpr hP _ (.expected _)
    rintro id _ rfl
    exact .resolveIf _ (.ident hname)

/-- Operands and chains call each other with less room, so one induction covers both. -/
theorem unary_chain (room : Nat) :
    (∀ lhs, Sim P (Expr.Alike P) (unary room lhs) (unary room lhs)) ∧
      ∀ lhs floor left left', left.Alike P left' →
        Sim P (Expr.Alike P) (chain room lhs floor left) (chain room lhs floor left') := by
  induction room with
  | zero =>
    constructor
    · intro lhs
      rw [Parse.unary]
      refine .bind .currentToken fun t t' ht => ?_
      rw [← ht.kind]
      cases UnaryOp.ofToken? t.kind with
      | some op => exact .tooDeep hP
      | none => exact .ite (fun _ => .tooDeep hP) fun _ => .leaf hP lhs
    · intro lhs floor left left' hleft
      rw [Parse.chain, Parse.chain]
      refine .bind .operator? ?_
      rintro op? _ rfl
      cases op? with
      | none => exact .pure hleft
      | some op =>
        refine .ite (fun _ => .pure hleft) fun _ => .bind (.expect _) fun _ _ hopPos =>
          .bind (.resolveIf _ hleft) fun _ _ hleft => .bind (.tooDeep hP) fun _ _ hright => .bind .freshId ?_
        rintro id _ rfl
        exact .pure (.binary hopPos hleft hright)
  | succ room ih =>
    obtain ⟨hunary, hchain⟩ := ih
    constructor
    · intro lhs
      rw [Parse.unary]
      refine .bind .currentToken fun t t' ht => ?_
      rw [← ht.kind]
      cases UnaryOp.ofToken? t.kind with
      | some op =>
        refine .bind .enter fun _ _ _ => .bind .next fun _ _ _ => .bind (hunary false) fun _ _ hoperand =>
          .bind .leave fun _ _ _ => .bind .freshId ?_
        rintro id _ rfl
        exact .pure (.unary ht.pos hoperand)
      | none =>
        refine .ite (fun _ => .bind .enter fun _ _ _ => .bind .next fun _ _ _ =>
          .bind (.withRhs true (.keepDepth (.bind (hunary _) fun _ _ hfirst => hchain _ _ _ _ hfirst)))
            fun _ _ hinner => .bind .leave fun _ _ _ => .bind (.expect _) fun _ _ hrparen => .bind .freshId ?_)
          fun _ => .leaf hP lhs
        rintro id _ rfl
        exact .pure (.paren ht.pos hinner hrparen)
    · intro lhs floor left left' hleft
      rw [Parse.chain, Parse.chain]
      refine .bind .operator? ?_
      rintro op? _ rfl
      cases op? with
      | none => exact .pure hleft
      | some op =>
        refine .ite (fun _ => .pure hleft) fun _ => .bind (.expect _) fun _ _ hopPos =>
          .bind (.resolveIf _ hleft) fun _ _ hleft => .bind .enter fun _ _ _ =>
            .bind (.keepDepth (.bind (hunary _) fun _ _ hfirst => hchain _ _ _ _ hfirst)) fun _ _ hright =>
              .bind .freshId ?_
        rintro id _ rfl
        exact hchain _ _ _ _ (.binary hopPos hleft hright)

theorem expr (lhs : Bool) : Sim P (Expr.Alike P) (expr lhs) (expr lhs) := by
  refine .bind .roomLeft ?_
  rintro room _ rfl
  obtain ⟨hunary, hchain⟩ := unary_chain hP room
  exact .keepDepth (.bind (hunary lhs) fun _ _ hfirst => hchain _ _ _ _ hfirst)

/-! ### Lists and types -/

theorem exprList (lhs : Bool) :
    Sim P (fun list list' => List.Forall₂ (Expr.Alike P) (list.1 :: list.2) (list'.1 :: list'.2)) (exprList lhs)
      (exprList lhs) :=
  exprList_eq lhs ▸ .commaList (.expr hP lhs)

theorem rhsList : Sim P (fun es es' => List.Forall₂ (Expr.Alike P) es es') rhsList rhsList :=
  .bind (.withRhs true (.exprList hP false)) fun _ _ hlist => .pure hlist

theorem lhsList :
    Sim P (fun list list' => List.Forall₂ (Expr.Alike P) (list.1 :: list.2) (list'.1 :: list'.2)) lhsList lhsList := by
  refine .bind (.withRhs false (.exprList hP true)) fun list list' hlist => .bind .currentKind ?_
  rintro kind _ rfl
  obtain ⟨hfirst, hothers⟩ := List.forall₂_cons.mp hlist
  exact .ite (fun _ => .pure hlist) fun _ => .bind (.resolveExpr hfirst) fun _ _ hfirst =>
    .bind (.mapM hothers fun _ _ he => .resolveExpr he) fun _ _ hothers => .pure (.cons hfirst hothers)

theorem typeOrSkipped {found found' : Option Expr} (h : Option.Rel (Expr.Alike P) found found') :
    Sim P (Expr.Alike P) (typeOrSkipped found) (typeOrSkipped found') := by
  cases h with
  | none => exact .skippedExpr hP _ (.expected _)
  | some h => exact .pure h

theorem bareType? (room : Nat) : Sim P (Option.Rel (Expr.Alike P)) (bareType? room) (bareType? room) := by
  have hident : Sim P (Option.Rel (Expr.Alike P)) (do
      let name ← Parse.ident
      return some (Expr.ident (← Parse.freshId) name)) (do
      let name ← Parse.ident
      return some (Expr.ident (← Parse.freshId) name)) := by
    refine .bind .ident fun name name' hname => .bind .freshId ?_
    rintro id _ rfl
    exact .pure (.some (.ident hname))
  induction room with
  | zero =>
    refine .bind .currentToken fun t t' ht => ?_
    rw [← ht.kind]
    exact .ite (fun _ => hident) fun _ =>
      .ite (fun _ => .bind (.tooDeep hP) fun _ _ he => .pure (.some he)) fun _ => .pure .none
  | succ room ih =>
    refine .bind .currentToken fun t t' ht => ?_
    rw [← ht.kind]
    refine .ite (fun _ => hident) fun _ => .ite (fun _ => .bind .enter fun _ _ _ => .bind .next fun _ _ _ =>
      .bind ih fun _ _ hfound => .bind (.typeOrSkipped hP hfound) fun _ _ hinner => .bind .leave fun _ _ _ =>
        .bind (.expect _) fun _ _ hrparen => .bind .freshId ?_) fun _ => .pure .none
    rintro id _ rfl
    exact .pure (.some (.paren ht.pos hinner hrparen))

end

theorem resolveType {type type' : Expr} (h : type.Alike P type') :
    Sim P (Expr.Alike P) (resolveType type) (resolveType type') := by
  induction h with
  | paren hlparen hinner hrparen ih => exact .bind ih fun _ _ hinner => .pure (.paren hlparen hinner hrparen)
  | @ident id i i' hi =>
    rw [Parse.resolveType, Parse.resolveType, ← hi.name]
    refine .ite (fun _ => .pure (.ident hi)) fun _ => .bind (.resolve hi) ?_
    rintro ⟨name, object⟩ ⟨name', _⟩ ⟨hname, rfl⟩
    refine .bind (.reportAny ?_) fun _ _ _ => .pure (.ident hname)
    cases object with
    | none => exact .none
    | some object =>
      refine .some ⟨hname.pos, ?_⟩
      rw [hname.name]
      exact .same rfl
  | bad hstart hstop => exact .pure (.bad hstart hstop)
  | literal hl => exact .pure (.literal hl)
  | unary hopPos hoperand => exact .pure (.unary hopPos hoperand)
  | binary hopPos hleft hright => exact .pure (.binary hopPos hleft hright)

theorem type? (hP : KeepsOrder P) : Sim P (Option.Rel (Expr.Alike P)) type? type? := by
  refine .bind .roomLeft ?_
  rintro room _ rfl
  refine .bind (.bareType? hP room) fun found found' hfound => ?_
  cases hfound with
  | none => exact .pure .none
  | some h => exact .bind (.resolveType h) fun _ _ h => .pure (.some h)

end RoseLang.Parse.Sim
