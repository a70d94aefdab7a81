import RoseLang.Proofs.Parse.Append.State
import RoseLang.Proofs.Syntax.Shape

/-!
# Expressions inside a longer text

One lemma for each parser: in the longer text it makes the same expression up to numbers, positions and bindings.
A loop over a list carries a bound on the tokens left, of which the longer text has more; as the bound is never
what ends the loop, this makes no difference.
-/

namespace RoseLang

/-- The same expression up to numbers, positions and bindings. -/
def Expr.Similar (e e' : Expr) : Prop := e'.erase = e.erase

namespace Expr.Similar

variable {e e' : Expr}

theorem ident {id id' : NodeId} {i i' : Ident} (h : i'.name = i.name) :
    (Expr.ident id i).Similar (.ident id' i') := by
  show Expr.ident _ _ = Expr.ident _ _
  rw [Ident.erase, Ident.erase, h]

theorem paren {id id' : NodeId} {lparen lparen' rparen rparen' : Pos} (h : e.Similar e') :
    (Expr.paren id lparen e rparen).Similar (.paren id' lparen' e' rparen') := by
  show Expr.paren _ _ _ _ = Expr.paren _ _ _ _
  rw [h]

theorem unary {id id' : NodeId} {op : UnaryOp} {opPos opPos' : Pos} (h : e.Similar e') :
    (Expr.unary id op opPos e).Similar (.unary id' op opPos' e') := by
  show Expr.unary _ _ _ _ = Expr.unary _ _ _ _
  rw [h]

theorem binary {id id' : NodeId} {op : BinaryOp} {opPos opPos' : Pos} {left left' right right' : Expr}
    (hleft : left.Similar left') (hright : right.Similar right') :
    (Expr.binary id op opPos left right).Similar (.binary id' op opPos' left' right') := by
  show Expr.binary _ _ _ _ _ = Expr.binary _ _ _ _ _
  rw [hleft, hright]

theorem exists_ident {id : NodeId} {i : Ident} (h : (Expr.ident id i).Similar e') :
    ∃ id' i', e' = .ident id' i' ∧ i'.name = i.name := by
  cases e' with
  | ident id' i' =>
    have hname : i'.erase.name = i.erase.name := congrArg Ident.name (Expr.ident.inj h).2
    exact ⟨id', i', rfl, hname⟩
  | _ => cases h

theorem exists_paren {id : NodeId} {lparen rparen : Pos} {inner : Expr}
    (h : (Expr.paren id lparen inner rparen).Similar e') :
    ∃ id' lparen' inner' rparen', e' = .paren id' lparen' inner' rparen' ∧ inner.Similar inner' := by
  cases e' with
  | paren id' lparen' inner' rparen' => exact ⟨id', lparen', inner', rparen', rfl, (Expr.paren.inj h).2.2.1⟩
  | _ => cases h

end Expr.Similar

namespace Parse

namespace Seam

variable (m : Seam)

def Place (p p' : Pos) : Prop := p' = p.moved m.bytes

def Number (id id' : NodeId) : Prop := id' = id + m.ids

structure Name (i i' : Ident) : Prop where
  name : i'.name = i.name
  pos : m.Place i.pos i'.pos

/-- What a name is found to be may differ. -/
def Found (a a' : Ident × Option ObjectId) : Prop := a'.1.name = a.1.name

/-- A list of expressions that has a first one. -/
def Listed (es es' : Expr × List Expr) : Prop := List.Forall₂ Expr.Similar (es.1 :: es.2) (es'.1 :: es'.2)

end Seam

/-! ### Values that correspond to each other -/

section
variable {m : Seam}

instance : Total Expr.Similar := ⟨fun e => ⟨e, rfl⟩⟩

instance : Total m.Place := ⟨fun p => ⟨p.moved m.bytes, rfl⟩⟩

instance : Total m.Number := ⟨fun id => ⟨id + m.ids, rfl⟩⟩

instance : Total m.Name := ⟨fun i => ⟨{ i with pos := i.pos.moved m.bytes }, rfl, rfl⟩⟩

instance : Total Seam.Found := ⟨fun a => ⟨a, rfl⟩⟩

instance : Total m.Same := ⟨fun t => ⟨{ t with span := ⟨t.pos.moved m.bytes, t.span.stop⟩ }, rfl, .inr rfl, rfl, rfl⟩⟩

instance : Total Seam.Listed where
  exists_rel es := ⟨es, List.forall₂_same.mpr fun _ _ => rfl⟩

instance {α : Type} {V : α → α → Prop} [hV : Total V] :
    Total fun list list' : α × List α => List.Forall₂ V (list.1 :: list.2) (list'.1 :: list'.2) where
  exists_rel list := by
    obtain ⟨first, hfirst⟩ := hV.exists_rel list.1
    obtain ⟨others, hothers⟩ := Total.exists_rel (V := List.Forall₂ V) list.2
    exact ⟨(first, others), .cons hfirst hothers⟩

end

namespace Mimics

variable {m : Seam} {b : Bool} {α : Type}

/-! ### Elementary steps -/

theorem currentToken : Mimics m true true m.Same currentToken currentToken :=
  .look .currentToken fun _ _ hs hlive => hs.token (hlive.2 rfl)

theorem currentKind : Mimics m true true Eq currentKind currentKind :=
  .look .currentKind fun _ _ hs hlive => (hs.token (hlive.2 rfl)).kind.symm

theorem currentPos : Mimics m true true m.Place currentPos currentPos :=
  .look .currentPos fun _ _ hs hlive => (hs.token (hlive.2 rfl)).pos

theorem operator? : Mimics m true true Eq operator? operator? := by
  refine .look .operator? fun s s' hs hlive => ?_
  rw [hs.inRhs, (hs.token (hlive.2 rfl)).kind]

theorem roomLeft : Mimics m b b Eq roomLeft roomLeft :=
  .look .roomLeft fun _ _ hs _ => by rw [hs.depth]

theorem next : Mimics m true true Eq next next :=
  .modify .next fun _ _ hs hlive => hs.next (hlive.2 rfl)

theorem enter : Mimics m b b Eq enter enter :=
  .modify .enter fun _ _ hs _ => { hs with depth := congrArg (· + 1) hs.depth }

theorem leave : Mimics m b b Eq leave leave :=
  .modify .leave fun _ _ hs _ => { hs with depth := congrArg (· - 1) hs.depth }

theorem freshId : Mimics m b b m.Number freshId freshId where
  back := Built.back .freshId
  run {s t s' id} hrun _ hs := by
    obtain ⟨rfl, rfl⟩ := EStateM.Result.ok.inj hrun
    refine ⟨s'.nextId, _, rfl, hs.nextId, { hs with nextId := ?_ }⟩
    show s'.nextId + 1 = s.nextId + 1 + m.ids
    rw [hs.nextId, Nat.add_right_comm]

/-- Where the parse alone has nothing to report, the longer one may report a clash. -/
theorem reportAny {fault fault' : Option (Pos × Fault)} (h : fault = none → ∀ f ∈ fault', f.2.IsClash) :
    Mimics m b b Eq (reportAny fault) (reportAny fault') where
  back := Built.back (.reportAny fault)
  run {s t s' a} hrun hlive hs := by
    obtain ⟨hnone, rfl⟩ := reportAny_clean hlive.1 hrun
    cases fault' with
    | none => exact ⟨(), s', rfl, rfl, hs⟩
    | some f =>
      have hkeep : report f.1 f.2 s' = .ok () (s'.keep ⟨f.1, f.2⟩) := by
        rw [Parse.report, get_bind, if_pos hs.allErrors]
        rfl
      refine ⟨(), s'.keep ⟨f.1, f.2⟩, hkeep, rfl, { hs with clashes := fun g hg => ?_ }⟩
      rcases List.mem_append.mp hg with hg | hg
      · exact hs.clashes g hg
      · obtain rfl := List.mem_singleton.mp hg
        exact h hnone f rfl

theorem expected (what : Expectation) {p' : Parser Unit} : Mimics m true b Eq (expected what) p' :=
  .dead (.expected what) fun _ _ _ => not_clean_of_expected

theorem require (kind : Kind) : Mimics m true true Eq (require kind) (require kind) := by
  refine .bind .currentKind ?_
  rintro found _ rfl
  exact .ite (fun _ => .pure rfl) fun _ => .expected _

theorem expect (kind : Kind) : Mimics m true true m.Place (expect kind) (expect kind) :=
  .bind .currentPos fun _ _ hpos => .bind (.require kind) fun _ _ _ => .bind .next fun _ _ _ => .pure hpos

theorem tooDeep {V : Expr → Expr → Prop} {p' : Parser Expr} : Mimics m true b V tooDeep p' :=
  .dead .tooDeep fun _ _ _ => not_clean_of_tooDeep

theorem skippedExpr (kinds : List Kind) (what : Expectation) {V : Expr → Expr → Prop} {p' : Parser Expr} :
    Mimics m true b V (skippedExpr kinds (Parse.expected what)) p' :=
  .dead (.skippedExpr kinds (.expected what)) fun _ _ _ => not_clean_of_skippedExpr fun _ _ => not_clean_of_expected

theorem resolve {i i' : Ident} (hi : i'.name = i.name) : Mimics m b b Seam.Found (resolve i) (resolve i') where
  back := Built.back (.resolve i)
  run {s t s' a} hrun _ hs := by
    obtain ⟨rfl, rfl⟩ := EStateM.Result.ok.inj hrun
    obtain ⟨binding, hident⟩ := s.names.ident_resolve i true
    obtain ⟨binding', hident'⟩ := s'.names.ident_resolve i' true
    refine ⟨_, _, rfl, ?_, { hs with }⟩
    show (s'.names.resolve i' true).1.name = (s.names.resolve i true).1.name
    rw [hident, hident']
    exact hi

theorem resolveExpr {e e' : Expr} (he : e.Similar e') :
    Mimics m b b Expr.Similar (resolveExpr e) (resolveExpr e') := by
  cases e with
  | ident id i =>
    obtain ⟨id', i', rfl, hi⟩ := he.exists_ident
    exact .bind (.resolve hi) fun _ _ ha => .pure (.ident ha)
  | _ =>
    cases e' with
    | ident => cases he
    | _ => exact .pure he

theorem resolveIf (now : Bool) {e e' : Expr} (he : e.Similar e') :
    Mimics m b b Expr.Similar (resolveIf now e) (resolveIf now e') :=
  .ite (fun _ => .resolveExpr he) fun _ => .pure he

/-! ### Expressions -/

theorem ident : Mimics m true true m.Name ident ident := by
  refine .bind .currentToken fun t t' ht => ?_
  rw [ht.kind]
  refine .ite (fun hkind => .bind .next fun _ _ _ => .bind .freshId fun _ _ _ => .pure ⟨?_, ht.pos⟩)
    fun _ => .bind (.expect _) fun _ _ hpos => .bind .freshId fun _ _ _ => .pure ⟨rfl, hpos⟩
  exact ht.text_eq (by rw [hkind]; decide)

theorem leaf (lhs : Bool) : Mimics m true true Expr.Similar (leaf lhs) (leaf lhs) := by
  refine .bind .currentToken fun t t' ht => ?_
  rw [ht.kind]
  cases hliteral : LiteralKind.ofToken? t.kind with
  | some kind =>
    have htext : t'.text = t.text := by
      refine ht.text_eq fun hsemi => ?_
      rw [hsemi] at hliteral
      cases hliteral
    refine .bind .next fun _ _ _ => .bind .freshId fun _ _ _ => .pure ?_
    show Expr.literal _ _ = Expr.literal _ _
    rw [Literal.erase, Literal.erase, htext]
  | none =>
    exact .ite (fun _ => .bind .ident fun _ _ hi => .bind .freshId fun _ _ _ => .resolveIf _ (.ident hi.name))
      fun _ => .skippedExpr _ _

/-- Operands and chains call each other with less room, so one induction covers both. -/
theorem unary_chain (room : Nat) :
    (∀ lhs, Mimics m true true Expr.Similar (unary room lhs) (unary room lhs)) ∧
      ∀ lhs floor left left', left.Similar left' →
        Mimics m true true Expr.Similar (chain room lhs floor left) (chain room lhs floor left') := by
  induction room with
  | zero =>
    constructor
    · intro lhs
      rw [Parse.unary]
      refine .bind .currentToken fun t t' ht => ?_
      rw [ht.kind]
      cases UnaryOp.ofToken? t.kind with
      | some op => exact .tooDeep
      | none => exact .ite (fun _ => .tooDeep) fun _ => .leaf lhs
    · intro lhs floor left left' hleft
      rw [Parse.chain, Parse.chain]
      refine .bind .operator? ?_
      rintro op? _ rfl
      cases op? with
      | none => exact .pure hleft
      | some op =>
        exact .ite (fun _ => .pure hleft) fun _ => .bind (.expect _) fun _ _ hopPos =>
          .bind (.resolveIf _ hleft) fun _ _ hleft => .bind .tooDeep fun _ _ hright => .bind .freshId fun _ _ _ =>
            .pure (.binary hleft hright)
  | succ room ih =>
    obtain ⟨hunary, hchain⟩ := ih
    constructor
    · intro lhs
      rw [Parse.unary]
      refine .bind .currentToken fun t t' ht => ?_
      rw [ht.kind]
      cases UnaryOp.ofToken? t.kind with
      | some op =>
        exact .bind .enter fun _ _ _ => .bind .next fun _ _ _ => .bind (hunary false) fun _ _ hoperand =>
          .bind .leave fun _ _ _ => .bind .freshId fun _ _ _ => .pure (.unary hoperand)
      | none =>
        exact .ite (fun _ => .bind .enter fun _ _ _ => .bind .next fun _ _ _ =>
          .bind (.withRhs true (.keepDepth (.bind (hunary _) fun _ _ hfirst => hchain _ _ _ _ hfirst)))
            fun _ _ hinner => .bind .leave fun _ _ _ => .bind (.expect _) fun _ _ _ => .bind .freshId fun _ _ _ =>
              .pure (.paren hinner)) fun _ => .leaf lhs
    · intro lhs floor left left' hleft
      rw [Parse.chain, Parse.chain]
      refine .bind .operator? ?_
      rintro op? _ rfl
      cases op? with
      | none => exact .pure hleft
      | some op =>
        exact .ite (fun _ => .pure hleft) fun _ => .bind (.expect _) fun _ _ hopPos =>
          .bind (.resolveIf _ hleft) fun _ _ hleft => .bind .enter fun _ _ _ =>
            .bind (.keepDepth (.bind (hunary _) fun _ _ hfirst => hchain _ _ _ _ hfirst)) fun _ _ hright =>
              .bind .freshId fun _ _ _ => hchain _ _ _ _ (.binary hleft hright)

theorem expr (lhs : Bool) : Mimics m true true Expr.Similar (expr lhs) (expr lhs) := by
  refine .bind .roomLeft ?_
  rintro room _ rfl
  obtain ⟨hunary, hchain⟩ := unary_chain (m := m) room
  exact .keepDepth (.bind (hunary lhs) fun _ _ hfirst => hchain _ _ _ _ hfirst)

/-! ### Lists and types -/

theorem commaLoop {V : α → α → Prop} [Total V] {item : Parser α} (hitem : Mimics m true true V item item) (n : Nat) :
    Mimics m true true (List.Forall₂ V) (commaLoop item n) (commaLoop item n) := by
  induction n with
  | zero => exact .pure .nil
  | succ n ih =>
    refine .bind .currentKind ?_
    rintro kind _ rfl
    exact .ite (fun _ => .bind .next fun _ _ _ => .bind hitem fun _ _ ha => .bind ih fun _ _ has =>
      .pure (.cons ha has)) fun _ => .pure .nil

theorem commaList {V : α → α → Prop} [Total V] {item : Parser α} (hbuilt : Built item)
    (hitem : Mimics m true true V item item) :
    Mimics m true true (fun list list' => List.Forall₂ V (list.1 :: list.2) (list'.1 :: list'.2)) (commaList item)
      (commaList item) :=
  .bind hitem fun _ _ hfirst => .bounded (commaLoop_enough hbuilt) (.commaLoop hitem) fun _ _ hothers =>
    .pure (.cons hfirst hothers)

theorem exprList (lhs : Bool) : Mimics m true true Seam.Listed (exprList lhs) (exprList lhs) :=
  exprList_eq lhs ▸ .commaList (.expr lhs) (.expr lhs)

theorem rhsList : Mimics m true true (List.Forall₂ Expr.Similar) rhsList rhsList :=
  .bind (.withRhs true (.exprList false)) fun _ _ hlist => .pure hlist

theorem lhsList : Mimics m true true Seam.Listed lhsList lhsList := by
  refine .bind (.withRhs false (.exprList true)) fun list list' hlist => .bind .currentKind ?_
  rintro kind _ rfl
  obtain ⟨hfirst, hothers⟩ := List.forall₂_cons.mp hlist
  exact .ite (fun _ => .pure hlist) fun _ => .bind (.resolveExpr hfirst) fun _ _ hfirst =>
    .bind (.mapM hothers fun _ _ he => .resolveExpr he) fun _ _ hothers => .pure (.cons hfirst hothers)

theorem typeOrSkipped {found found' : Option Expr} (h : Option.Rel Expr.Similar found found') :
    Mimics m true true Expr.Similar (typeOrSkipped found) (typeOrSkipped found') := by
  cases h with
  | none => exact .skippedExpr _ _
  | some h => exact .pure h

theorem bareType? (room : Nat) : Mimics m true true (Option.Rel Expr.Similar) (bareType? room) (bareType? room) := by
  have hident : Mimics m true true (Option.Rel Expr.Similar) (do
      let name ← Parse.ident
      return some (Expr.ident (← Parse.freshId) name)) (do
      let name ← Parse.ident
      return some (Expr.ident (← Parse.freshId) name)) :=
    .bind .ident fun _ _ hi => .bind .freshId fun _ _ _ => .pure (.some (.ident hi.name))
  induction room with
  | zero =>
    refine .bind .currentToken fun t t' ht => ?_
    rw [ht.kind]
    exact .ite (fun _ => hident) fun _ =>
      .ite (fun _ => .bind .tooDeep fun _ _ he => .pure (.some he)) fun _ => .pure .none
  | succ room ih =>
    refine .bind .currentToken fun t t' ht => ?_
    rw [ht.kind]
    exact .ite (fun _ => hident) fun _ => .ite (fun _ => .bind .enter fun _ _ _ => .bind .next fun _ _ _ =>
      .bind ih fun _ _ hfound => .bind (.typeOrSkipped hfound) fun _ _ hinner => .bind .leave fun _ _ _ =>
        .bind (.expect _) fun _ _ _ => .bind .freshId fun _ _ _ => .pure (.some (.paren hinner))) fun _ => .pure .none

/-- What is no type in the longer text is a clash. -/
theorem resolveType {type type' : Expr} (h : type.Similar type') :
    Mimics m true true Expr.Similar (resolveType type) (resolveType type') := by
  induction type generalizing type' with
  | paren id lparen inner rparen ih =>
    obtain ⟨id', lparen', inner', rparen', rfl, hinner⟩ := h.exists_paren
    exact .bind (ih hinner) fun _ _ hinner => .pure (.paren hinner)
  | ident id i =>
    obtain ⟨id', i', rfl, hi⟩ := h.exists_ident
    rw [Parse.resolveType, Parse.resolveType, hi]
    refine .ite (fun _ => .pure h) fun _ => .bind (.resolve hi) fun a a' ha => .bind (.reportAny fun _ f hf => ?_)
      fun _ _ _ => .pure (.ident ha)
    obtain ⟨object, -, rfl⟩ := Option.map_eq_some_iff.mp hf
    trivial
  | _ =>
    cases type' with
    | paren => cases h
    | ident => cases h
    | _ => exact .pure h

theorem type? : Mimics m true true (Option.Rel Expr.Similar) type? type? := by
  refine .bind .roomLeft ?_
  rintro room _ rfl
  refine .bind (.bareType? room) fun found found' hfound => ?_
  cases hfound with
  | none => exact .pure .none
  | some h => exact .bind (.resolveType h) fun _ _ h => .pure (.some h)

end Mimics

end Parse

end RoseLang
