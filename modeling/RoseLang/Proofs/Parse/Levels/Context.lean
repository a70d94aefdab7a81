import RoseLang.Proofs.Parse.Step

/-!
# Parsers that restore their context

A parse remembers how many levels of nesting it has entered, and whether it reads a right-hand side. Only the parsers
of expressions and types change that, and each of them sets it back. All others leave it alone; this holds of each
step, and composition passes it on.
-/

namespace RoseLang.Parse

variable {α β : Type}

/-- The states are at the same depth and on the same side of a statement. -/
structure SameContext (s t : State) : Prop where
  depth : t.depth = s.depth
  inRhs : t.inRhs = s.inRhs

namespace SameContext

variable {s t u : State}

theorem refl (s : State) : SameContext s s := ⟨rfl, rfl⟩

theorem trans (h : SameContext s t) (h' : SameContext t u) : SameContext s u :=
  ⟨h'.depth.trans h.depth, h'.inRhs.trans h.inRhs⟩

theorem keepLexical (s : State) (e : LexError) : SameContext s (s.keepLexical e) := by
  rw [State.keepLexical]
  split <;> exact ⟨rfl, rfl⟩

theorem next (s : State) : SameContext s s.next := by
  have hfold : ∀ (es : List LexError) (t : State), SameContext t (es.foldl State.keepLexical t) := by
    intro es
    induction es with
    | nil => exact .refl
    | cons e es ih => exact fun t => (SameContext.keepLexical t e).trans (ih _)
  rw [State.next]
  split
  · exact .refl s
  · next l rest _ =>
    have hread : SameContext s { s with token := l.token, rest } := ⟨rfl, rfl⟩
    exact hread.trans (hfold _ _)

theorem skipTo (kinds : List Kind) (s : State) : SameContext s (s.skipTo kinds) := by
  fun_induction State.skipTo kinds s with
  | case1 s heof => exact .refl s
  | case2 s heof s' hstop =>
    obtain ⟨-, ⟨-, -, rfl⟩ | ⟨-, rfl⟩⟩ := State.stop?_eq_some hstop
    all_goals exact ⟨rfl, rfl⟩
  | case3 s heof hstop hrest => exact .refl s
  | case4 s heof hstop hrest ih => exact (SameContext.next s).trans ih

end SameContext

/-- Where `p` comes to its end, the context is the one in which it started. -/
def Restores (p : Parser α) : Prop := ∀ s a t, p s = .ok a t → SameContext s t

namespace Restores

theorem pure (a : α) : Restores (Pure.pure a) := by
  intro s b t h
  obtain ⟨-, rfl⟩ := pure_eq_ok.mp h
  exact .refl s

theorem bind {p : Parser α} {f : α → Parser β} (hp : Restores p) (hf : ∀ a, Restores (f a)) :
    Restores (p >>= f) := by
  intro s b u h
  obtain ⟨a, t, ha, h⟩ := bind_eq_ok.mp h
  exact (hp s a t ha).trans (hf a t b u h)

theorem of_step {p : Parser α} {f : State → α} {g : State → State} (hp : ∀ s, p s = .ok (f s) (g s))
    (hg : ∀ s, SameContext s (g s)) : Restores p := by
  intro s a t h
  rw [hp] at h
  cases h
  exact hg s

/-- A parser that does what another one does from a state in the same context. -/
theorem of_eq {p : Parser α} (h : ∀ s, ∃ (q : Parser α) (t : State), p s = q t ∧ SameContext s t ∧ Restores q) :
    Restores p := by
  intro s a u hrun
  obtain ⟨q, t, heq, hsame, hq⟩ := h s
  exact hsame.trans (hq t a u (heq ▸ hrun))

theorem currentToken : Restores currentToken := of_step (fun _ => rfl) .refl

theorem currentKind : Restores currentKind := of_step (fun _ => rfl) .refl

theorem currentPos : Restores currentPos := of_step (fun _ => rfl) .refl

theorem operator? : Restores operator? := of_step (fun _ => rfl) .refl

theorem next : Restores next := of_step (fun _ => rfl) .next

theorem freshId : Restores freshId := of_step (fun _ => rfl) fun _ => ⟨rfl, rfl⟩

theorem skipTo (kinds : List Kind) : Restores (skipTo kinds) := of_step (fun _ => rfl) (.skipTo kinds)

theorem resolve (i : Ident) : Restores (resolve i) := of_step (fun _ => rfl) fun _ => ⟨rfl, rfl⟩

/-- A loop that is bounded by the number of tokens left. -/
theorem bounded {loop : Nat → Parser α} {f : α → Parser β} (hloop : ∀ n, Restores (loop n))
    (hf : ∀ a, Restores (f a)) : Restores (get >>= fun s => loop s.rest.length >>= f) :=
  .of_eq fun s => ⟨_, s, get_bind s _, .refl s, .bind (hloop _) hf⟩

theorem report (pos : Pos) (fault : Fault) : Restores (report pos fault) := by
  intro s _ t h
  rcases report_eq_ok h with rfl | ⟨rfl, -⟩
  · exact ⟨rfl, rfl⟩
  · exact .refl _

theorem reportAny (fault : Option (Pos × Fault)) : Restores (reportAny fault) := by
  cases fault with
  | none => exact .pure ()
  | some f => exact .report f.1 f.2

theorem mapM {f : α → Parser β} (hf : ∀ a, Restores (f a)) (as : List α) : Restores (as.mapM f) := by
  induction as with
  | nil =>
    rw [List.mapM_nil]
    exact .pure []
  | cons a as ih =>
    rw [List.mapM_cons]
    exact .bind (hf a) fun b => .bind ih fun bs => .pure (b :: bs)

/-! ### Tokens and names -/

theorem expected (what : Expectation) : Restores (expected what) :=
  .bind .currentToken fun _ => .report _ _

theorem require (kind : Kind) : Restores (require kind) := by
  refine .bind .currentKind fun found => ?_
  split
  · exact .pure ()
  · exact .expected _

theorem expect (kind : Kind) : Restores (expect kind) :=
  .bind .currentPos fun pos => .bind (.require kind) fun _ => .bind .next fun _ => .pure pos

theorem expectSemi : Restores expectSemi := by
  refine .bind .currentKind fun found => ?_
  split
  · exact .pure ()
  · exact .pure ()
  · exact .next
  · exact .expected _

theorem skipped (kinds : List Kind) {complaint : Parser Unit} (h : Restores complaint) :
    Restores (skipped kinds complaint) :=
  .bind .currentPos fun _ => .bind h fun _ => .bind (.skipTo kinds) fun _ => .bind .currentPos fun _ => .pure _

theorem skippedExpr (kinds : List Kind) {complaint : Parser Unit} (h : Restores complaint) :
    Restores (skippedExpr kinds complaint) :=
  .bind (.skipped kinds h) fun _ => .bind .freshId fun _ => .pure _

theorem tooDeep : Restores tooDeep := .skippedExpr _ (.bind .currentPos fun _ => .report _ _)

theorem resolveExpr (e : Expr) : Restores (resolveExpr e) := by
  cases e with
  | ident id i => exact .bind (.resolve i) fun _ => .pure _
  | _ => exact .pure _

theorem resolveIf (now : Bool) (e : Expr) : Restores (resolveIf now e) := by
  rw [Parse.resolveIf]
  split
  · exact .resolveExpr e
  · exact .pure e

theorem ident : Restores ident := by
  refine .bind .currentToken fun t => ?_
  split
  · exact .bind .next fun _ => .bind .freshId fun _ => .pure _
  · exact .bind (.expect _) fun _ => .bind .freshId fun _ => .pure _

theorem leaf (lhs : Bool) : Restores (leaf lhs) := by
  refine .bind .currentToken fun t => ?_
  split
  · exact .bind .next fun _ => .bind .freshId fun _ => .pure _
  · split
    · exact .bind .ident fun _ => .bind .freshId fun _ => .resolveIf _ _
    · exact .skippedExpr _ (.expected _)

theorem typeOrSkipped (found : Option Expr) : Restores (typeOrSkipped found) := by
  cases found with
  | none => exact .skippedExpr _ (.expected _)
  | some type => exact .pure type

theorem resolveType (type : Expr) : Restores (resolveType type) := by
  induction type with
  | paren id lparen inner rparen ih => exact .bind ih fun _ => .pure _
  | ident id i =>
    rw [Parse.resolveType]
    split
    · exact .pure _
    · exact .bind (.resolve i) fun _ => .bind (.reportAny _) fun _ => .pure _
  | _ => exact .pure _

theorem commaLoop {item : Parser α} (hitem : Restores item) (n : Nat) : Restores (commaLoop item n) := by
  induction n with
  | zero => exact .pure []
  | succ n ih =>
    refine .bind .currentKind fun kind => ?_
    split
    · exact .bind .next fun _ => .bind hitem fun _ => .bind ih fun _ => .pure _
    · exact .pure []

theorem nameList : Restores nameList := by
  rw [nameList_eq]
  exact .bind (.bind .ident fun _ => .bounded (.commaLoop .ident) fun _ => .pure _) fun _ => .pure _

theorem declare (kind : ObjectKind) (decl : NodeId) (index : Nat) (name : Ident) :
    Restores (declare kind decl index name) :=
  .of_eq fun s => ⟨_, _, declare_apply kind decl index name s, ⟨rfl, rfl⟩, .bind (.reportAny _) fun _ => .pure _⟩

end Restores

end RoseLang.Parse
