import RoseLang.Proofs.Parse.Sound.Expr

/-!
# Every expression of the grammar is read

Where the tokens of a grouped tree stand ahead, followed by an operator that admits the tree or by none,
the parser reads them without a fault and makes the tree, but for numbers and bindings. The induction is
on the tree. A chain enters one level for each operator on the left spine and goes on from there, which is
what the statement for chains says: reading `e` from the start leaves the chain as it is after `e`.
-/

namespace RoseLang.Parse

open Grammar (IsExpr IsType IsTypeOption)

/-- The operator that the first of the tokens writes. On a right-hand side a stray `=` is read as `==`. -/
def operatorOf? (inRhs : Bool) (ts : List Token) : Option BinaryOp :=
  ts.head?.bind fun t => BinaryOp.ofToken? (if inRhs && t.kind = .assign then .eql else t.kind)

theorem State.binaryOp?_eq (s : State) : s.binaryOp? = operatorOf? s.inRhs s.tokens := rfl

theorem operatorOf?_cons_of_kind {t : Token} {op : BinaryOp} (hkind : t.kind = op.token) (inRhs : Bool)
    (ts : List Token) : operatorOf? inRhs (t :: ts) = some op := by
  have hnotAssign : t.kind ≠ .assign := by
    rw [hkind]
    cases op <;> decide
  simp only [operatorOf?, List.head?_cons, Option.bind_some, hnotAssign, decide_false, Bool.and_false,
    Bool.false_eq_true, ↓reduceIte]
  rw [hkind, BinaryOp.ofToken?_token]

/-- The tokens `ts` stand ahead, then the tokens `us`, and no fault has been or will be met. -/
structure Ahead (s : State) (ts us : List Token) : Prop where
  terminated : s.Terminated
  quiet : s.Quiet
  tokens : s.tokens = ts ++ us

namespace Ahead

variable {s t : State} {ts us vs : List Token}

theorem step (h : Ahead s (ts ++ us) vs) (hreads : Reads s ts t) : Ahead t us vs where
  terminated := hreads.terminated h.terminated
  quiet := hreads.quiet h.quiet
  tokens := hreads.tokens_eq (by rw [h.tokens, List.append_assoc])

/-- How deep the expression is makes no difference to what stands ahead. -/
theorem step_at {depth : Nat} (h : Ahead s (ts ++ us) vs) (hreads : Reads s ts { t with depth }) :
    Ahead t us vs := by
  obtain ⟨hterminated, hquiet, htokens⟩ := h.step hreads
  exact ⟨hterminated, hquiet, htokens⟩

/-- The tokens after those that are read next. -/
theorem after (h : Ahead s ts us) (hreads : Reads s ts t) : t.tokens = us := hreads.tokens_eq h.tokens

theorem token_eq {t : Token} (h : Ahead s (t :: ts) us) : s.token = t := (List.cons.inj h.tokens).1

theorem head_eq {t : Token} (h : Ahead s (t :: ts ++ us) vs) : s.token = t := (List.cons.inj h.tokens).1

theorem tail {t : Token} {u : State} (h : Ahead s (t :: ts) us) (hreads : Reads s [t] u) : Ahead u ts us :=
  step h hreads

theorem next {t : Token} (h : Ahead s (t :: ts) us) (hkind : t.kind ≠ .eof) : Reads s [t] s.next := by
  have htoken := h.token_eq
  rw [← htoken]
  exact .next h.terminated (htoken ▸ hkind)

/-- The step past a token that is not the end of the file. -/
theorem past {t : Token} (h : Ahead s (t :: ts) us) (hkind : t.kind ≠ .eof) :
    s.token.kind = t.kind ∧ Reads s [t] s.next ∧ Ahead s.next ts us :=
  ⟨h.token_eq ▸ rfl, h.next hkind, h.tail (h.next hkind)⟩

/-- Inside the level that the next token opens. -/
theorem enter {t : Token} (h : Ahead s (t :: ts) us) (hkind : t.kind ≠ .eof) :
    Ahead s.inside ts us := by
  have hdeeper : Ahead { s with depth := s.depth + 1 } ([t] ++ ts) us := ⟨h.terminated, h.quiet, h.tokens⟩
  exact hdeeper.step (hdeeper.next hkind)

theorem append (h : Ahead s (ts ++ us) vs) : Ahead s ts (us ++ vs) :=
  ⟨h.terminated, h.quiet, by rw [h.tokens, List.append_assoc]⟩

end Ahead

theorem resolveExpr_ok (e : Expr) (s : State) :
    ∃ e' s', resolveExpr e s = .ok e' s' ∧ Reads s [] s' ∧ e'.erase = e.erase := by
  obtain ⟨e', s', hrun⟩ : ∃ e' s', resolveExpr e s = .ok e' s' := by
    cases e with
    | ident id i => exact ⟨_, _, rfl⟩
    | _ => exact ⟨_, s, rfl⟩
  obtain ⟨hreads, rfl | ⟨id, i, binding, rfl, rfl⟩⟩ := resolveExpr_reads hrun
  · exact ⟨_, s', hrun, hreads, rfl⟩
  · exact ⟨_, s', hrun, hreads, rfl⟩

theorem resolveIf_ok (now : Bool) (e : Expr) (s : State) :
    ∃ e' s', resolveIf now e s = .ok e' s' ∧ Reads s [] s' ∧ e'.erase = e.erase := by
  rw [resolveIf]
  split
  · exact resolveExpr_ok e s
  · exact ⟨e, s, rfl, .refl s, rfl⟩

theorem ident_ok {s : State} {t : Token} {us : List Token} (h : Ahead s [t] us) (hkind : t.kind = .ident) :
    ∃ i' s', ident s = .ok i' s' ∧ i'.pos = t.pos ∧ i'.name = t.text ∧ Reads s [t] s' := by
  have htoken := h.token_eq
  refine ⟨⟨s.next.nextId, s.token.pos, s.token.text, .unbound⟩, _, ?_, by rw [htoken], by rw [htoken],
    (h.next (by rw [hkind]; decide)).freshId⟩
  rw [ident, currentToken_bind, if_pos (by rw [htoken, hkind])]
  rfl

theorem leaf_literal_ok {lhs : Bool} {s : State} {t : Token} {us : List Token} {l : Literal} {id : NodeId}
    (h : Ahead s [t] us) (hfits : (Mark.worded l.kind.token l.pos l.text).Fits t) :
    ∃ e' s', leaf lhs s = .ok e' s' ∧ e'.erase = (Expr.literal id l).erase ∧ Reads s [t] s' := by
  have htoken := h.token_eq
  obtain ⟨hkind, -, htext⟩ := Mark.worded_fits_iff.mp hfits
  have hliteral : LiteralKind.ofToken? s.token.kind = some l.kind := by
    rw [htoken, hkind, LiteralKind.ofToken?_token]
  refine ⟨_, _, leaf_of_literal hliteral, ?_, (h.next ?_).freshId⟩
  · simp [Expr.erase, Literal.erase, htoken, htext]
  · rw [hkind]
    cases l.kind <;> decide

theorem leaf_ident_ok {lhs : Bool} {s : State} {t : Token} {us : List Token} {i : Ident} {id : NodeId}
    (h : Ahead s [t] us) (hfits : i.mark.Fits t) :
    ∃ e' s', leaf lhs s = .ok e' s' ∧ e'.erase = (Expr.ident id i).erase ∧ Reads s [t] s' := by
  have htoken := h.token_eq
  obtain ⟨hkind, -, hname⟩ := Mark.worded_fits_iff.mp hfits
  rw [leaf_of_ident (by rw [htoken, hkind])]
  obtain ⟨i', u, hrun, -, hname', hreads⟩ := ident_ok h hkind
  rw [bind_of_ok hrun, freshId_bind]
  obtain ⟨e', s', hresolve, hlook, herase⟩ :=
    resolveIf_ok (!lhs) (.ident u.nextId i') { u with nextId := u.nextId + 1 }
  refine ⟨e', s', hresolve, ?_, by simpa using hreads.freshId.trans hlook⟩
  rw [herase]
  simp [Expr.erase, Ident.erase, hname, hname']

/-- What `unary` makes of the tokens of `e`. -/
private def UnaryMakes (e : Expr) : Prop :=
  ∀ room lhs s ts us, e.levels ≤ room → Mark.FitAll e.marks ts → Ahead s ts us →
    ∃ e' s', unary room lhs s = .ok e' s' ∧ e'.erase = e.erase ∧ Reads s ts s'

/-- What a chain makes of the tokens of `e` that it starts with: it has entered as many levels as `e` has
operators on its left spine, and goes on after `e`. -/
private def ChainMakes (e : Expr) : Prop :=
  ∀ room lhs floor s ts us, e.levels ≤ room → Mark.FitAll e.marks ts → Ahead s ts us →
    e.BindsAtLeast floor → (∀ op, operatorOf? s.inRhs us = some op → op.AdmitsLeft e) →
    ∃ lhs' e' s', (unary room lhs >>= chain room lhs floor) s = chain (room - e.spine) lhs' floor e' s' ∧
      e'.erase = e.erase ∧ Reads s ts { s' with depth := s.depth }

private theorem UnaryMakes.chain {e : Expr} (h : UnaryMakes e) (hspine : e.spine = 0) : ChainMakes e := by
  intro room lhs floor s ts us hlevels hfit hahead _ _
  obtain ⟨e', s', hrun, herase, hreads⟩ := h room lhs s ts us hlevels hfit hahead
  refine ⟨lhs, e', s', ?_, herase, hreads.withDepth s' hreads.depth⟩
  rw [bind_of_ok hrun, hspine, Nat.sub_zero]

/-- A chain that is read to its end, in parentheses or to the right of an operator. -/
private theorem ChainMakes.operand {e : Expr} (h : ChainMakes e) (room floor : Nat) (lhs : Bool) {s : State}
    {ts us : List Token} (hlevels : e.levels ≤ room) (hfit : Mark.FitAll e.marks ts) (hahead : Ahead s ts us)
    (hbinds : e.BindsAtLeast floor)
    (hstop : ∀ op, operatorOf? s.inRhs us = some op → op.AdmitsLeft e ∧ op.precedence < floor) :
    ∃ e' s', (keepDepth do
        let first ← unary room lhs
        chain room lhs floor first) s = .ok e' s' ∧ e'.erase = e.erase ∧ Reads s ts s' := by
  obtain ⟨lhs', e', t, hrun, herase, hreads⟩ :=
    h room lhs floor s ts us hlevels hfit hahead hbinds fun op hop => (hstop op hop).1
  have htokens : t.tokens = us := hahead.after (t := { t with depth := s.depth }) hreads
  have hinRhs : t.inRhs = s.inRhs := hreads.inRhs
  have hend : chain (room - e.spine) lhs' floor e' t = .ok e' t := by
    refine chain_of_stop fun op hop => (hstop op ?_).2
    rwa [State.binaryOp?_eq, htokens, hinRhs] at hop
  exact ⟨e', _, keepDepth_eq_ok.mpr ⟨t, hrun.trans hend, rfl⟩, herase, hreads⟩

private theorem unary_makes {e : Expr} (h : UnaryMakes e) (id : NodeId) (op : UnaryOp) (opPos : Pos) :
    UnaryMakes (.unary id op opPos e) := by
  intro room lhs s ts us hlevels hfit hahead
  obtain ⟨room, rfl⟩ : ∃ r, room = r + 1 := ⟨room - 1, by rw [Expr.levels] at hlevels; omega⟩
  obtain ⟨t, ts, rfl, ht, hoperand⟩ := Mark.FitAll.cons_iff.mp hfit
  obtain rfl := hahead.token_eq
  obtain ⟨hkind, -⟩ := Mark.placed_fits_iff.mp ht
  have heof : s.token.kind ≠ .eof := by
    rw [hkind]
    cases op <;> decide
  obtain ⟨e', u, hrun, herase, hreads⟩ :=
    h room false _ ts us (Nat.le_of_succ_le_succ hlevels) hoperand (hahead.enter heof)
  rw [unary_succ_of_op (hkind ▸ UnaryOp.ofToken?_token op), bind_of_ok hrun, leave_bind, freshId_bind]
  refine ⟨_, _, rfl, ?_, (hreads.level hahead.terminated heof).freshId⟩
  rw [Expr.erase, Expr.erase, herase]

private theorem paren_makes {e : Expr} (h : ChainMakes e) (id : NodeId) (lparen rparen : Pos) :
    UnaryMakes (.paren id lparen e rparen) := by
  intro room lhs s ts us hlevels hfit hahead
  obtain ⟨room, rfl⟩ : ∃ r, room = r + 1 := ⟨room - 1, by rw [Expr.levels] at hlevels; omega⟩
  obtain ⟨ls, rs, rfl, hls, hrs⟩ := Mark.FitAll.append_iff.mp hfit
  obtain ⟨l, ts, rfl, hl, hinner⟩ := Mark.FitAll.cons_iff.mp hls
  obtain ⟨r, rfl, hr⟩ := Mark.FitAll.single_iff.mp hrs
  obtain ⟨hlkind, -⟩ := Mark.placed_fits_iff.mp hl
  obtain ⟨hrkind, -⟩ := Mark.placed_fits_iff.mp hr
  obtain rfl := hahead.token_eq
  have heof : s.token.kind ≠ .eof := by
    rw [hlkind]
    decide
  have hinside := hahead.append.enter heof
  have hstop : ∀ op, operatorOf? true ([r] ++ us) = some op → op.AdmitsLeft e ∧ op.precedence < 1 := by
    intro op hop
    simp [operatorOf?, hrkind, BinaryOp.ofToken?] at hop
  obtain ⟨e', v, hrun, herase, hreads⟩ := h.operand room 1 false
    (s := { s.inside with inRhs := true })
    (Nat.le_of_succ_le_succ hlevels) hinner ⟨hinside.terminated, hinside.quiet, hinside.tokens⟩
    (fun op _ => op.precedence_pos) hstop
  have hlevel := hreads.setRhs.level hahead.terminated heof
  have hclose := hahead.step hlevel
  have hclosed := hclose.next (by rw [hrkind]; decide)
  rw [unary_succ_of_lparen hlkind, bind_of_ok (withRhs_eq_ok.mpr ⟨v, hrun, rfl⟩), leave_bind,
    bind_of_ok (expect_of_kind (by rw [hclose.token_eq, hrkind])), freshId_bind]
  refine ⟨_, _, rfl, ?_, (hlevel.trans hclosed).freshId⟩
  rw [Expr.erase, Expr.erase, herase]

private theorem binary_makes {left right : Expr} (hleft : ChainMakes left) (hright : ChainMakes right)
    {op : BinaryOp} (hadmitsLeft : op.AdmitsLeft left) (hadmitsRight : op.AdmitsRight right) (id : NodeId)
    (opPos : Pos) : ChainMakes (.binary id op opPos left right) := by
  intro room lhs floor s ts us hlevels hfit hahead hbinds hnext
  rw [Expr.levels] at hlevels
  obtain ⟨ls, os, rfl, hls, hos⟩ := Mark.FitAll.append_iff.mp hfit
  obtain ⟨t, rs, rfl, ht, hrs⟩ := Mark.FitAll.cons_iff.mp hos
  obtain ⟨hkind, -⟩ := Mark.placed_fits_iff.mp ht
  have hfloor : floor ≤ op.precedence := hbinds op rfl
  have hop : ∀ inRhs, operatorOf? inRhs (t :: rs ++ us) = some op := fun inRhs =>
    operatorOf?_cons_of_kind hkind inRhs (rs ++ us)
  -- The left operand binds at least as tightly as the operator, so the chain takes it first.
  obtain ⟨lhs', left', u, hrunLeft, heraseLeft, hreadsLeft⟩ := hleft room lhs floor s ls (t :: rs ++ us)
    (by omega) hls hahead.append
    (fun inner hinner => Nat.le_trans hfloor (hadmitsLeft inner hinner).1)
    (fun op' hop' => by rw [hop] at hop'; cases hop'; exact hadmitsLeft)
  have hu : Ahead u (t :: rs) us := Ahead.step_at (by simpa using hahead) hreadsLeft
  have huop : u.binaryOp? = some op := by rw [State.binaryOp?_eq, hu.tokens, hop]
  have hreadsOp := hu.next (by rw [hkind]; cases op <;> decide)
  obtain ⟨left'', v, hresolve, hlook, heraseLeft'⟩ := resolveIf_ok lhs' left' u.next
  have hreadsBefore := hreadsOp.trans hlook
  have hv : Ahead v rs us := hu.step hreadsBefore
  -- What follows admits the whole, and so the right operand as well.
  have hstop : ∀ op', operatorOf? v.inRhs us = some op' →
      op'.AdmitsLeft right ∧ op'.precedence < op.rightFloor := by
    intro op' hop'
    have hinRhs : v.inRhs = s.inRhs := hreadsBefore.inRhs.trans hreadsLeft.inRhs
    exact BinaryOp.admitsLeft_right (hnext op' (hinRhs ▸ hop')) hadmitsRight
  obtain ⟨right', w, hrunRight, heraseRight, hreadsRight⟩ :=
    hright.operand (room - (left.spine + 1)) op.rightFloor false (s := { v with depth := v.depth + 1 })
      (by omega) hrs ⟨hv.terminated, hv.quiet, hv.tokens⟩ (BinaryOp.admitsRight_iff.mp hadmitsRight) hstop
  have hroom : room - left.spine = room - (left.spine + 1) + 1 := by omega
  have hukind : u.token.kind = op.token := by rw [hu.token_eq, hkind]
  refine ⟨false, .binary w.nextId op u.token.pos left'' right', { w with nextId := w.nextId + 1 }, ?_, ?_, ?_⟩
  · rw [hrunLeft, hroom, chain_succ huop hfloor, bind_of_ok (expect_of_kind hukind), bind_of_ok hresolve,
      enter_bind, bind_of_ok hrunRight, freshId_bind]
    rfl
  · rw [Expr.erase, Expr.erase, heraseLeft', heraseLeft, heraseRight]
  · have hall := hreadsLeft.trans ((hreadsBefore.setDepth s.depth).trans (hreadsRight.setDepth s.depth))
    exact hall.freshId

private theorem expr_makes {e : Expr} (hgrouped : e.Grouped) (hcomplete : e.Complete) :
    (e.binaryOp? = none → UnaryMakes e) ∧ ChainMakes e := by
  have hboth : ∀ {e : Expr}, UnaryMakes e → e.spine = 0 → (e.binaryOp? = none → UnaryMakes e) ∧ ChainMakes e :=
    fun h hspine => ⟨fun _ => h, h.chain hspine⟩
  induction e with
  | bad id start stop => cases hcomplete
  | ident id i =>
    refine hboth (fun room lhs s ts us _ hfit hahead => ?_) rfl
    obtain ⟨t, rfl, ht⟩ := Mark.FitAll.single_iff.mp hfit
    have hkind : s.token.kind = .ident := hahead.token_eq ▸ (Mark.worded_fits_iff.mp ht).1
    rw [unary_of_leaf (by rw [hkind]; rfl) (by rw [hkind]; decide)]
    exact leaf_ident_ok hahead ht
  | literal id l =>
    refine hboth (fun room lhs s ts us _ hfit hahead => ?_) rfl
    obtain ⟨t, rfl, ht⟩ := Mark.FitAll.single_iff.mp hfit
    have hkind : s.token.kind = l.kind.token := hahead.token_eq ▸ (Mark.worded_fits_iff.mp ht).1
    rw [unary_of_leaf (by rw [hkind]; cases l.kind <;> rfl) (by rw [hkind]; cases l.kind <;> decide)]
    exact leaf_literal_ok hahead ht
  | paren id lparen inner rparen ih => exact hboth (paren_makes (ih hgrouped hcomplete).2 id lparen rparen) rfl
  | unary id op opPos operand ih =>
    exact hboth (unary_makes ((ih hgrouped.2 hcomplete).1 hgrouped.1) id op opPos) rfl
  | binary id op opPos left right ihleft ihright =>
    obtain ⟨hadmitsLeft, hadmitsRight, hleft, hright⟩ := hgrouped
    refine ⟨nofun, ?_⟩
    exact binary_makes (ihleft hleft hcomplete.1).2 (ihright hright hcomplete.2).2 hadmitsLeft hadmitsRight id opPos

/-- An expression of the grammar is read if no operator follows it. -/
theorem expr_ok (lhs : Bool) {s : State} {ts us : List Token} {e : Expr} (hexpr : IsExpr .expr ts e)
    (hlevels : e.levels ≤ maxDepth) (hahead : Ahead s ts us) (hdepth : s.depth = 0)
    (hend : operatorOf? s.inRhs us = none) :
    ∃ e' s', expr lhs s = .ok e' s' ∧ e'.erase = e.erase ∧ Reads s ts s' := by
  rw [expr, roomLeft_bind, hdepth, Nat.sub_zero]
  refine (expr_makes hexpr.grouped hexpr.complete).2.operand maxDepth 1 lhs hlevels hexpr.fitAll hahead
    (fun op _ => op.precedence_pos) fun op hop => ?_
  rw [hend] at hop
  cases hop

/-! ### Types -/

theorem bareType?_ok {room : Nat} {s : State} {ts us : List Token} {type : Expr} (htype : IsType ts type)
    (hlevels : type.levels ≤ room) (hahead : Ahead s ts us) :
    ∃ type' s', bareType? room s = .ok (some type') s' ∧ type'.erase = type.erase ∧ Reads s ts s' := by
  induction htype generalizing room s us with
  | @ident ts i id hname =>
    obtain ⟨hkind, hpos, hword⟩ := hname
    obtain ⟨i', u, hrun, -, hword', hreads⟩ := ident_ok hahead hkind
    rw [bareType?_of_ident (hahead.token_eq ▸ hkind), bind_of_ok hrun, freshId_bind]
    refine ⟨_, _, rfl, ?_, hreads.freshId⟩
    simp [Expr.erase, Ident.erase, hword, hword']
  | @paren l ts e r id hl hinner hr ih =>
    obtain ⟨room, rfl⟩ : ∃ n, room = n + 1 := ⟨room - 1, by rw [Expr.levels] at hlevels; omega⟩
    obtain rfl := hahead.head_eq
    have heof : s.token.kind ≠ .eof := by
      rw [hl]
      decide
    obtain ⟨e', u, hrun, herase, hreads⟩ := ih (Nat.le_of_succ_le_succ hlevels) (hahead.append.enter heof)
    have hlevel := hreads.level hahead.terminated heof
    have hclose := hahead.step hlevel
    have hclosed := hclose.next (by rw [hr]; decide)
    have hfound : typeOrSkipped (some e') u = .ok e' u := rfl
    rw [bareType?_succ_of_lparen hl, bind_of_ok hrun, bind_of_ok hfound, leave_bind,
      bind_of_ok (expect_of_kind (by rw [hclose.token_eq, hr])), freshId_bind]
    refine ⟨_, _, rfl, ?_, (hlevel.trans hclosed).freshId⟩
    rw [Expr.erase, Expr.erase, herase]

/-- A type whose name has not been declared is looked up without a fault. -/
theorem resolveType_ok (type : Expr) {declared : List String} {s : State} (hdeclares : s.names.Declares declared)
    (hfree : ∀ name, type.bare.ident?.map Ident.name = some name → name ∉ builtinTypes → name ∉ declared) :
    ∃ type' s', resolveType type s = .ok type' s' ∧ type'.erase = type.erase ∧ Reads s [] s' := by
  induction type generalizing s with
  | paren id lparen inner rparen ih =>
    obtain ⟨inner', s', hrun, herase, hreads⟩ := ih hdeclares hfree
    refine ⟨.paren id lparen inner' rparen, s', ?_, by rw [Expr.erase, Expr.erase, herase], hreads⟩
    rw [resolveType, bind_of_ok hrun]
    rfl
  | ident id i =>
    rw [resolveType]
    split
    · exact ⟨_, s, rfl, rfl, .refl s⟩
    · next hbuiltin =>
      have hmem := hfree i.name rfl fun h => hbuiltin (List.contains_iff_mem.mpr h)
      have hnone := (hdeclares.resolve_eq_none_iff true).mpr hmem
      obtain ⟨binding, hi⟩ := s.names.ident_resolve i true
      rw [resolve_bind]
      simp only [hnone, Option.map_none]
      refine ⟨.ident id (s.names.resolve i true).1, { s with names := (s.names.resolve i true).2.2 }, rfl, ?_,
        ⟨rfl, fun hs => hs, s.names.scopes_resolve i true, rfl, rfl⟩⟩
      rw [hi]
      rfl
  | _ =>
    refine ⟨_, s, ?_, rfl, .refl s⟩
    rw [resolveType] <;> first | rfl | simp

theorem bare_erase (e : Expr) : (e.erase.bare.ident?).map Ident.name = e.bare.ident?.map Ident.name := by
  induction e with
  | paren id lparen inner rparen ih => exact ih
  | _ => rfl

/-- A type of the grammar, or none, is read if its name has not been declared. -/
theorem type?_ok (sp : Spec) {declared : List String} {s : State} {ts us : List Token}
    (htype : IsTypeOption ts sp.type) (hlevels : ∀ e ∈ sp.type, e.levels ≤ maxDepth) (hahead : Ahead s ts us)
    (hdepth : s.depth = 0) (hdeclares : s.names.Declares declared) (hfree : ¬ sp.TypeIn declared)
    (hend : ∀ t ∈ us.head?, t.kind ≠ .ident ∧ t.kind ≠ .lparen) :
    ∃ type' s', type? s = .ok type' s' ∧ type'.map Expr.erase = sp.type.map Expr.erase ∧ Reads s ts s' := by
  obtain ⟨id, names, type, values⟩ := sp
  dsimp only at htype hlevels
  rw [type?, roomLeft_bind, hdepth, Nat.sub_zero]
  cases htype with
  | none =>
    have hhead : s.token ∈ us.head? := by
      rw [← List.nil_append us, ← hahead.tokens]
      rfl
    obtain ⟨hident, hlparen⟩ := hend _ hhead
    rw [bind_of_ok (bareType?_of_other hident hlparen)]
    exact ⟨none, s, rfl, rfl, .refl s⟩
  | some htype =>
    obtain ⟨bare, u, hrun, herase, hreads⟩ := bareType?_ok htype (hlevels _ rfl) hahead
    obtain ⟨e', s', hresolve, herase', hlook⟩ :=
      resolveType_ok bare (hdeclares.congr hreads.scopes) fun name hname hbuiltin hmem => by
        refine hfree ⟨name, ?_, hbuiltin, hmem⟩
        rw [← bare_erase, herase, bare_erase] at hname
        exact hname
    rw [bind_of_ok hrun]
    refine ⟨some e', s', ?_, ?_, by simpa using hreads.trans hlook⟩
    · dsimp only
      rw [bind_of_ok hresolve]
      rfl
    · rw [Option.map_some, Option.map_some, herase', herase]

end RoseLang.Parse
