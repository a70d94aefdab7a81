import Mathlib.Data.List.Perm.Basic
import RoseLang.Proofs.Parse.Names.Lookup
import RoseLang.Proofs.Parse.Sound.Stmt

/-!
# Names in expressions and types

Each operand is looked up as it is read, but for a mere name at the start of a left-hand side: that waits for
an operator to follow, or else for the end of the list. `Made` holds on both sides, with these names left
out while they wait. In a type the name is looked up once the whole type has been read.
-/

namespace RoseLang

/-- The identifiers of an expression that are not waiting. -/
def Expr.settled (lhs : Bool) (e : Expr) : List Use := if lhs && e.ident?.isSome then [] else e.uses false

/-- The identifier that waits, if the expression is a mere name of a left-hand side. -/
def Expr.waiting (e : Expr) : List Use := if e.ident?.isSome then e.uses false else []

@[simp] theorem Expr.settled_false : settled false = uses false := rfl

theorem Expr.settled_of_none {lhs : Bool} {e : Expr} (h : e.ident? = none) :
    e.settled lhs = e.uses false := by
  simp [settled, h]

theorem Expr.settled_append_waiting (e : Expr) : e.settled true ++ e.waiting = e.uses false := by
  rw [settled, waiting, Bool.true_and]
  split
  · exact List.nil_append _
  · exact List.append_nil _

/-- The identifiers of a left-hand side in the order in which they are looked up: those that wait come last. -/
def Expr.lateUses (es : List Expr) : List Use := es.flatMap (settled true) ++ es.flatMap waiting

theorem Expr.lateUses_singleton (e : Expr) : lateUses [e] = e.uses false := by
  rw [lateUses, List.flatMap_singleton, List.flatMap_singleton, settled_append_waiting]

theorem Expr.lateUses_perm (es : List Expr) : (lateUses es).Perm (es.flatMap (uses false)) := by
  rw [show uses false = fun e => e.settled true ++ e.waiting from
    funext fun e => (settled_append_waiting e).symm]
  exact List.flatMap_append_perm es (settled true) waiting

namespace Parse

/-- The expressions are made from `s` to `s'`, and their identifiers looked up unless they wait. -/
structure Made (lhs : Bool) (s : State) (es : List Expr) (s' : State) : Prop where
  looksUp : LooksUp s (es.flatMap (Expr.settled lhs)) [] s'
  waiting : lhs = true → ∀ e ∈ es, ∀ i, e.ident? = some i → i.binding = .unbound
  numbered : Numbered s.nextId ((es.flatMap Expr.idents).map Ident.id) s'.nextId

namespace Made

variable {lhs : Bool} {s t u : State} {e e' : Expr} {es fs : List Expr}

theorem idle (lhs : Bool) (h : LooksUp s [] [] t) : Made lhs s [] t := ⟨h, by simp, .nil h.nextId_le⟩

theorem append (h : Made lhs s es t) (h' : Made lhs t fs u) : Made lhs s (es ++ fs) u where
  looksUp := by
    rw [List.flatMap_append]
    exact h.looksUp.trans h'.looksUp
  waiting hlhs e he := by
    rcases List.mem_append.mp he with he | he
    · exact h.waiting hlhs e he
    · exact h'.waiting hlhs e he
  numbered := by
    rw [List.flatMap_append, List.map_append]
    exact h.numbered.append h'.numbered

theorem before (h : Made lhs s es t) (h' : LooksUp t [] [] u) : Made lhs s es u := by
  simpa using h.append (.idle lhs h')

theorem after (h : LooksUp s [] [] t) (h' : Made lhs t es u) : Made lhs s es u :=
  (Made.idle lhs h).append h'

/-- An expression put together from others, which have all been looked up. -/
theorem rebuild (h : Made false s es t) (hidents : e.idents = es.flatMap Expr.idents)
    (hnone : e.ident? = none) : Made lhs s [e] t where
  looksUp := by
    have huses : e.uses false = es.flatMap (Expr.settled false) := by
      rw [Expr.uses, hidents, List.map_flatMap]
      rfl
    rw [List.flatMap_singleton, Expr.settled_of_none hnone, huses]
    exact h.looksUp
  waiting _ e' he' i hi := by
    rw [List.mem_singleton.mp he', hnone] at hi
    cases hi
  numbered := by
    rw [List.flatMap_singleton, hidents]
    exact h.numbered

theorem bad {id : NodeId} {start stop : Pos} (h : LooksUp s [] [] t) : Made lhs s [.bad id start stop] t :=
  (Made.idle false h).rebuild rfl rfl

end Made

theorem ident_made {s s' : State} {i : Ident} (h : ident s = .ok i s') :
    i.binding = .unbound ∧ i.pos = s.token.pos ∧ Numbered s.nextId [i.id] s'.nextId := by
  rw [ident, currentToken_bind] at h
  split at h
  · rw [next_bind, freshId_bind, pure_eq_ok] at h
    obtain ⟨rfl, rfl⟩ := h
    exact ⟨rfl, rfl, (Numbered.single _).mono (LooksUp.next s).nextId_le (Nat.le_refl _)⟩
  · obtain ⟨pos, t, hexpect, h⟩ := bind_eq_ok.mp h
    rw [freshId_bind, pure_eq_ok] at h
    obtain ⟨rfl, rfl⟩ := h
    have hle := (Idle.expect _ _ _ _ hexpect).nextId_le
    rw [expect, currentPos_bind] at hexpect
    obtain ⟨_, v, -, hexpect⟩ := bind_eq_ok.mp hexpect
    rw [next_bind, pure_eq_ok] at hexpect
    obtain ⟨rfl, rfl⟩ := hexpect
    exact ⟨rfl, rfl, (Numbered.single _).mono hle (Nat.le_refl _)⟩

/-- A name waits, to begin with. -/
theorem Made.name {s t : State} {i : Ident} (h : Parse.ident s = .ok i t) (id : NodeId) :
    Made true s [.ident id i] t := by
  obtain ⟨hunbound, -, hnumbered⟩ := ident_made h
  refine ⟨Idle.ident _ _ _ h, fun _ e he j hj => ?_, hnumbered⟩
  obtain rfl := List.mem_singleton.mp he
  cases hj
  exact hunbound

/-! ### The end of waiting -/

theorem resolveExpr_late {e e' : Expr} {s s' : State}
    (hwaiting : ∀ i, e.ident? = some i → i.binding = .unbound) (h : resolveExpr e s = .ok e' s') :
    LooksUp s e'.waiting [] s' ∧ e'.settled true = e.settled true ∧
      e'.idents.map Ident.id = e.idents.map Ident.id := by
  cases e with
  | ident id i =>
    rw [resolveExpr, resolve_bind, pure_eq_ok] at h
    obtain ⟨rfl, rfl⟩ := h
    obtain ⟨binding, hi⟩ := s.names.ident_resolve i true
    refine ⟨LooksUp.resolve s false (hwaiting i rfl) (by simp), rfl, ?_⟩
    rw [Expr.idents, hi]
    rfl
  | _ =>
    rw [resolveExpr, pure_eq_ok] at h
    · obtain ⟨rfl, rfl⟩ := h
      exact ⟨.refl s, rfl, rfl⟩
    · exact fun _ _ h => by cases h

theorem mapM_resolveExpr_late {es es' : List Expr} {s s' : State}
    (hwaiting : ∀ e ∈ es, ∀ i, e.ident? = some i → i.binding = .unbound)
    (h : es.mapM resolveExpr s = .ok es' s') :
    LooksUp s (es'.flatMap Expr.waiting) [] s' ∧
      es'.flatMap (Expr.settled true) = es.flatMap (Expr.settled true) ∧
      (es'.flatMap Expr.idents).map Ident.id = (es.flatMap Expr.idents).map Ident.id := by
  induction es generalizing es' s with
  | nil =>
    rw [List.mapM_nil] at h
    obtain ⟨rfl, rfl⟩ := pure_eq_ok.mp h
    exact ⟨.refl s, rfl, rfl⟩
  | cons e es ih =>
    obtain ⟨e', t, rest, he, hrest, rfl⟩ := mapM_cons_eq_ok h
    obtain ⟨hfirst, hothers⟩ := List.forall_mem_cons.mp hwaiting
    obtain ⟨hlooksUp, hsettled, hids⟩ := resolveExpr_late hfirst he
    obtain ⟨hlooksUp', hsettled', hids'⟩ := ih hothers hrest
    refine ⟨?_, ?_, ?_⟩
    · rw [List.flatMap_cons]
      exact hlooksUp.trans hlooksUp'
    · rw [List.flatMap_cons, List.flatMap_cons, hsettled, hsettled']
    · rw [List.flatMap_cons, List.flatMap_cons, List.map_append, List.map_append, hids, hids']

/-- The expressions of a left-hand side are made from `s` to `s'`, and all their identifiers looked up. -/
structure MadeLate (s : State) (es : List Expr) (s' : State) : Prop where
  looksUp : LooksUp s (Expr.lateUses es) [] s'
  numbered : Numbered s.nextId ((es.flatMap Expr.idents).map Ident.id) s'.nextId

/-- Once those that wait are looked up too, all identifiers have been. -/
theorem Made.resolve {s t u : State} {es es' : List Expr} (h : Made true s es t)
    (hrun : es.mapM resolveExpr t = .ok es' u) : MadeLate s es' u := by
  obtain ⟨hlate, hsettled, hids⟩ := mapM_resolveExpr_late (h.waiting rfl) hrun
  refine ⟨?_, ?_⟩
  · rw [Expr.lateUses, hsettled]
    exact h.looksUp.trans hlate
  · rw [hids]
    exact h.numbered.mono (Nat.le_refl _) hlate.nextId_le

theorem mapM_cons_ok {α β : Type} {f : α → Parser β} {a : α} {as : List α} {b : β} {bs : List β}
    {s t u : State} (h : f a s = .ok b t) (h' : as.mapM f t = .ok bs u) :
    (a :: as).mapM f s = .ok (b :: bs) u := by
  rw [List.mapM_cons, bind_of_ok h, bind_of_ok h']
  rfl

theorem Made.resolveExpr {s t u : State} {e e' : Expr} (h : Made true s [e] t)
    (hrun : resolveExpr e t = .ok e' u) : Made false s [e'] u := by
  have hlate := h.resolve (mapM_cons_ok hrun (by rw [List.mapM_nil]; rfl))
  refine ⟨?_, by simp, hlate.numbered⟩
  rw [List.flatMap_singleton, Expr.settled_false, ← Expr.lateUses_singleton]
  exact hlate.looksUp

theorem Made.resolveIf {lhs : Bool} {s t u : State} {e e' : Expr} (h : Made lhs s [e] t)
    (hrun : resolveIf lhs e t = .ok e' u) : Made false s [e'] u := by
  cases lhs with
  | true => exact h.resolveExpr hrun
  | false =>
    obtain ⟨rfl, rfl⟩ := pure_eq_ok.mp hrun
    exact h

/-! ### Operands and chains -/

theorem tooDeep_made {lhs : Bool} {s s' : State} {e : Expr} (h : tooDeep s = .ok e s') :
    Made lhs s [e] s' := by
  have hidle := Idle.tooDeep s e s' h
  obtain ⟨t, -, rfl, rfl⟩ := skippedExpr_eq_ok h
  exact .bad hidle

private theorem setDepth_idle (s : State) (depth : Nat) : LooksUp s [] [] { s with depth } :=
  .of_same rfl rfl rfl (Nat.le_refl _)

private theorem setRhs_idle (s : State) (inRhs : Bool) : LooksUp s [] [] { s with inRhs } :=
  .of_same rfl rfl rfl (Nat.le_refl _)

theorem LooksUp.inside (s : State) : LooksUp s [] [] s.inside := (setDepth_idle s (s.depth + 1)).before (.next _)

private theorem name_made {lhs : Bool} {s t s' : State} {i : Ident} {e : Expr} (hname : ident s = .ok i t)
    (hresolve : resolveIf (!lhs) (.ident t.nextId i) { t with nextId := t.nextId + 1 } = .ok e s') :
    Made lhs s [e] s' := by
  have hmade := (Made.name hname t.nextId).before (.freshId t)
  cases lhs with
  | true =>
    obtain ⟨rfl, rfl⟩ := pure_eq_ok.mp hresolve
    exact hmade
  | false => exact hmade.resolveExpr hresolve

private theorem paren_made {lhs : Bool} {s t u : State} {inner : Expr} {rparen : Pos}
    (h : Made false { s.inside with inRhs := true } [inner] t)
    (hrparen : expect .rparen { t with inRhs := s.inside.inRhs, depth := t.depth - 1 } = .ok rparen u) :
    Made lhs s [.paren u.nextId s.token.pos inner rparen] { u with nextId := u.nextId + 1 } := by
  have hmade := h.after ((LooksUp.inside s).before (setRhs_idle _ true))
  have hleave := (hmade.before (setRhs_idle t s.inside.inRhs)).before (setDepth_idle _ (t.depth - 1))
  have hclose := (Idle.expect _ _ _ _ hrparen).before (.freshId u)
  exact (hleave.before hclose).rebuild (List.flatMap_singleton ..).symm rfl

/-- An operator, and before it the operand on its left, no longer waiting. -/
private theorem left_made {lhs : Bool} {s₀ s t u : State} {op : BinaryOp} {pos : Pos} {left left' : Expr}
    (h : Made lhs s₀ [left] s) (hexpect : expect op.token s = .ok pos t)
    (hresolve : resolveIf lhs left t = .ok left' u) : Made false s₀ [left'] u :=
  (h.before (Idle.expect _ _ _ _ hexpect)).resolveIf hresolve

private theorem binary_made (lhs : Bool) {s t u : State} {left right : Expr} (op : BinaryOp) (pos : Pos)
    (hleft : Made false s [left] t) (hright : Made false t [right] u) :
    Made lhs s [.binary u.nextId op pos left right] { u with nextId := u.nextId + 1 } := by
  refine ((hleft.append hright).before (.freshId u)).rebuild ?_ rfl
  simp [Expr.idents]

/-- What is made of each part, from the state `s₀` on in which its left operand starts. -/
private abbrev Part.Settles (s : State) (e : Expr) (s' : State) : Part → Prop
  | unary lhs => Made lhs s [e] s'
  | chain lhs _ left => ∀ s₀, Made lhs s₀ [left] s → Made lhs s₀ [e] s' ∧ (left.ident? = none → e.ident? = none)
  | operand lhs _ => Made lhs s [e] s'

private theorem Runs.settles {room : Nat} {part : Part} {s s' : State} {e : Expr} (h : Runs room part s e s') :
    part.Settles s e s' := by
  induction h with
  | literal => exact (Made.idle false ((LooksUp.next _).before (.freshId _))).rebuild rfl rfl
  | name hkind hname hresolve => exact name_made hname hresolve
  | missing hop hlparen hliteral hident hskipped =>
    have hidle := Idle.skippedExpr _ (.expected _) _ _ _ hskipped
    obtain ⟨t, -, rfl, rfl⟩ := skippedExpr_eq_ok hskipped
    exact .bad hidle
  | tooDeep hopens hskipped => exact tooDeep_made hskipped
  | @sign room lhs s t op operand hop hoperand ih =>
    have hclose := (setDepth_idle t (t.depth - 1)).before (.freshId _)
    exact ((Made.after (.inside s) ih).before hclose).rebuild (List.flatMap_singleton ..).symm rfl
  | paren hlparen hinner hrparen ih => exact paren_made ih hrparen
  | stop hstop => exact fun s₀ hleft => ⟨hleft, id⟩
  | @noRoom floor lhs s t u v op opPos left left' right hop hfloor hexpect hresolve hskipped =>
    intro s₀ hleft
    exact ⟨binary_made lhs op opPos (left_made hleft hexpect hresolve) (tooDeep_made hskipped), fun _ => rfl⟩
  | @operator room floor lhs s t u v s' op opPos left left' right e hop hfloor hexpect hresolve hright hrest
      ihright ihrest =>
    intro s₀ hleft
    have hoperand := Made.after (setDepth_idle u (u.depth + 1)) ihright
    have hjoined := binary_made false op opPos (left_made hleft hexpect hresolve) hoperand
    obtain ⟨hmade, hkeeps⟩ := ihrest s₀ hjoined
    exact ⟨hmade.rebuild (List.flatMap_singleton ..).symm (hkeeps rfl), fun _ => hkeeps rfl⟩
  | @operand room floor lhs s t u first e hfirst hrest ihfirst ihrest =>
    exact (ihrest s ihfirst).1.before (setDepth_idle u s.depth)

theorem expr_made {lhs : Bool} {s s' : State} {e : Expr} (h : expr lhs s = .ok e s') :
    Made lhs s [e] s' := (expr_runs h).settles

/-! ### Lists -/

theorem CommaRuns.made {lhs : Bool} {n : Nat} {s s' : State} {es : List Expr} (h : CommaRuns (expr lhs) n s es s') :
    Made lhs s es s' := by
  induction h with
  | full | stop => exact .idle lhs (.refl _)
  | more hcomma hfirst hrest ih => exact ((expr_made hfirst).append ih).after (.next _)

theorem commaList_made {inRhs lhs : Bool} {s t : State} {list : Expr × List Expr}
    (h : commaList (expr lhs) { s with inRhs } = .ok list t) :
    Made lhs s (list.1 :: list.2) { t with inRhs := s.inRhs } := by
  obtain ⟨u, hfirst, hothers⟩ := commaList_eq_ok.mp h
  have hmade := (expr_made hfirst).append hothers.made
  exact (hmade.after (setRhs_idle s inRhs)).before (setRhs_idle t s.inRhs)

theorem rhsList_made {s s' : State} {es : List Expr} (h : rhsList s = .ok es s') : Made false s es s' := by
  obtain ⟨first, others, t, rfl, hlist, rfl⟩ := rhsList_eq_ok.mp h
  exact commaList_made hlist

/-- Before a colon, which no statement goes on with, the names go on waiting. -/
theorem lhsList_made {s s' : State} {list : Expr × List Expr} (h : lhsList s = .ok list s') :
    MadeLate s (list.1 :: list.2) s' ∨ s'.token.kind = .colon ∧ Made true s (list.1 :: list.2) s' := by
  cases LhsRuns.of_ok h with
  | waiting hlist hcolon => exact .inr ⟨hcolon, commaList_made hlist⟩
  | lookedUp hlist hkind hfirst hothers => exact .inl ((commaList_made hlist).resolve (mapM_cons_ok hfirst hothers))

theorem initialValues_made {s s' : State} {values : List Expr} (h : initialValues s = .ok values s') :
    Made false s values s' := by
  obtain ⟨-, hrhs⟩ | ⟨-, rfl, rfl⟩ := initialValues_eq_ok.mp h
  · exact (rhsList_made hrhs).after (.next s)
  · exact .idle false (.refl _)

end Parse

end RoseLang
