import RoseLang.Proofs.Parse.Built
import RoseLang.Proofs.Parse.StmtRuns
import RoseLang.Proofs.Token.Lexemes

/-!
# From steps to statements

What holds of whole statements because it holds of each step. `Extends` says what no step takes away,
`Terminated` that the tokens to come end with the end token, and `forall_exprs_stmt` lifts a property of the
expressions and types that are read to all those of a statement.
-/

namespace RoseLang

namespace Parse

variable {α β : Type}

namespace State

/-- The tokens from the current one on. -/
def tokens (s : State) : List Token := s.token :: s.rest.map Lexeme.token

def Terminated (s : State) : Prop := EndsOnce s.tokens

theorem tokens_ne_nil (s : State) : s.tokens ≠ [] := List.cons_ne_nil _ _

@[simp] theorem keepLexical_token (s : State) (e : LexError) : (s.keepLexical e).token = s.token := by
  rw [keepLexical]
  split <;> rfl

@[simp] theorem foldl_keepLexical_token (es : List LexError) (s : State) :
    (es.foldl keepLexical s).token = s.token := by
  induction es generalizing s with
  | nil => rfl
  | cons e es ih => rw [List.foldl_cons, ih, keepLexical_token]

theorem next_of_nil {s : State} (h : s.rest = []) : s.next = s := by
  rw [next]
  split
  · rfl
  · next hrest => rw [h] at hrest; cases hrest

theorem keepLexical_eq (s : State) (e : LexError) : ∃ findings, s.keepLexical e = { s with findings } := by
  rw [keepLexical]
  split
  · exact ⟨s.findings, rfl⟩
  · exact ⟨_, rfl⟩

theorem foldl_keepLexical_eq (es : List LexError) (s : State) :
    ∃ findings, es.foldl keepLexical s = { s with findings } := by
  induction es generalizing s with
  | nil => exact ⟨s.findings, rfl⟩
  | cons e es ih =>
    obtain ⟨fs, hfs⟩ := s.keepLexical_eq e
    obtain ⟨gs, hgs⟩ := ih { s with findings := fs }
    exact ⟨gs, by rw [List.foldl_cons, hfs, hgs]⟩

theorem next_eq (s : State) :
    ∃ findings, s.next = { s with token := s.next.token, rest := s.rest.tail, findings } := by
  cases hrest : s.rest with
  | nil =>
    refine ⟨s.findings, ?_⟩
    rw [next_of_nil hrest, List.tail_nil, ← hrest]
  | cons l ls =>
    obtain ⟨findings, h⟩ := foldl_keepLexical_eq l.errors { s with token := l.token, rest := ls }
    have hnext : s.next = { s with token := l.token, rest := ls, findings } := by
      rw [next, hrest]
      exact h
    exact ⟨findings, by rw [hnext, List.tail_cons]⟩

theorem tokens_next_of_cons {s : State} {l : Lexeme} {ls : List Lexeme} (h : s.rest = l :: ls) :
    s.tokens = s.token :: s.next.tokens := by
  rw [tokens, tokens, rest_next, h, next]
  split
  · next hrest => rw [h] at hrest; cases hrest
  · next m ms hrest =>
    rw [h] at hrest
    cases hrest
    simp

theorem tokens_next_suffix (s : State) : s.next.tokens <:+ s.tokens := by
  cases hrest : s.rest with
  | nil =>
    have hsame : s.next.tokens = s.tokens := by rw [next_of_nil hrest]
    exact hsame ▸ List.suffix_rfl
  | cons l ls =>
    rw [tokens_next_of_cons hrest]
    exact List.suffix_cons _ _

/-- Only at the end token there is nothing to go on to. -/
theorem Terminated.tokens_next {s : State} (h : s.Terminated) (hkind : s.token.kind ≠ .eof) :
    s.tokens = s.token :: s.next.tokens := by
  cases hrest : s.rest with
  | cons l ls => exact tokens_next_of_cons hrest
  | nil =>
    obtain ⟨us, t, htokens, ht, -⟩ := h
    rw [tokens, hrest, List.map_nil] at htokens
    have hlast := congrArg List.getLast? htokens
    rw [List.getLast?_singleton, List.getLast?_concat] at hlast
    exact absurd (Option.some.inj hlast ▸ ht) hkind

theorem Terminated.tokens_eof {s : State} (h : s.Terminated) (hkind : s.token.kind = .eof) :
    s.tokens = [s.token] := by
  obtain ⟨us, t, htokens, ht, hus⟩ := h
  cases us with
  | nil =>
    rw [htokens, List.nil_append, List.singleton_inj]
    exact (List.cons.inj htokens).1.symm
  | cons u us =>
    rw [tokens, List.cons_append, List.cons.injEq] at htokens
    exact absurd hkind (htokens.1 ▸ hus u List.mem_cons_self)

end State

/-! ### What no step takes away -/

/-- What a parse has read, kept and made in the state `s` is not lost in `s'`. -/
structure Extends (s s' : State) : Prop where
  tokens : s'.tokens <:+ s.tokens
  stmts : s'.stmts = s.stmts
  findings : s.findings <+: s'.findings

theorem Extends.refl (s : State) : Extends s s := ⟨List.suffix_rfl, rfl, List.prefix_rfl⟩

theorem Extends.trans {s t u : State} (h : Extends s t) (h' : Extends t u) : Extends s u :=
  ⟨h'.tokens.trans h.tokens, h'.stmts.trans h.stmts, h.findings.trans h'.findings⟩

theorem Extends.keepLexical (s : State) (e : LexError) : Extends s (s.keepLexical e) := by
  rw [State.keepLexical]
  split
  · exact .refl s
  · exact ⟨List.suffix_rfl, rfl, List.prefix_append _ _⟩

theorem Extends.foldl_keepLexical (es : List LexError) (s : State) :
    Extends s (es.foldl State.keepLexical s) := by
  induction es generalizing s with
  | nil => exact .refl s
  | cons e es ih => exact (Extends.keepLexical s e).trans (ih _)

theorem Extends.next (s : State) : Extends s s.next := by
  cases hrest : s.rest with
  | nil =>
    rw [State.next_of_nil hrest]
    exact .refl s
  | cons l ls =>
    have hkept := Extends.foldl_keepLexical l.errors { s with token := l.token, rest := ls }
    have hnext : s.next = l.errors.foldl State.keepLexical { s with token := l.token, rest := ls } := by
      rw [State.next, hrest]
    exact ⟨s.tokens_next_suffix, hnext ▸ hkept.stmts, hnext ▸ hkept.findings⟩

theorem stepRel_extends : StepRel Extends where
  refl := .refl
  trans := .trans
  next := .next
  keep _ _ := ⟨List.suffix_rfl, rfl, List.prefix_append _ _⟩
  steer _ _ _ _ _ := ⟨List.suffix_rfl, rfl, List.prefix_rfl⟩
  number _ := ⟨List.suffix_rfl, rfl, List.prefix_rfl⟩
  resolve _ _ := ⟨List.suffix_rfl, rfl, List.prefix_rfl⟩
  declare _ _ _ _ _ := ⟨List.suffix_rfl, rfl, List.prefix_rfl⟩

theorem Extends.of_ok {p : Parser α} (hp : Built p) {s s' : State} {a : α} (h : p s = .ok a s') :
    Extends s s' := (stepRel_extends.respects hp).of_ok h

theorem Extends.of_error {p : Parser α} (hp : Built p) {s s' : State} {e : Stop} (h : p s = .error e s') :
    Extends s s' := (stepRel_extends.respects hp).of_error h

theorem Extends.terminated {s s' : State} (h : Extends s s') (hs : s.Terminated) : s'.Terminated :=
  EndsOnce.of_suffix hs h.tokens s'.tokens_ne_nil

theorem CommaRuns.extends {item : Parser α} {n : Nat} {as : List α} {s s' : State} (h : CommaRuns item n s as s')
    (hitem : Built item) : Extends s s' := by
  induction h with
  | full | stop => exact .refl _
  | more hcomma hfirst hrest ih => exact ((Extends.next _).trans (.of_ok hitem hfirst)).trans ih

theorem SpecsRuns.extends {keyword : DeclKeyword} {index n : Nat} {entries : List Spec} {s s' : State}
    (h : SpecsRuns keyword index n s entries s') : Extends s s' := by
  induction h with
  | full | stop => exact .refl _
  | more hgo hfirst hrest ih => exact (Extends.of_ok (.spec keyword _) hfirst).trans ih

/-! ### Expressions of a statement -/

theorem resolveExpr_eq_ok {e e' : Expr} {s s' : State} (h : resolveExpr e s = .ok e' s') :
    e' = e ∨ ∃ id i, e' = .ident id i := by
  cases e with
  | ident id i =>
    rw [resolveExpr, resolve_bind, pure_eq_ok] at h
    exact .inr ⟨_, _, h.1.symm⟩
  | _ =>
    rw [resolveExpr, pure_eq_ok] at h
    · exact .inl h.1.symm
    · exact fun _ _ h => by cases h

theorem mapM_eq_ok {f : α → Parser β} {as : List α} {bs : List β} {s s' : State}
    (h : as.mapM f s = .ok bs s') : ∀ b ∈ bs, ∃ a ∈ as, ∃ t t', f a t = .ok b t' := by
  induction as generalizing bs s with
  | nil =>
    rw [List.mapM_nil, pure_eq_ok] at h
    simp [← h.1]
  | cons a as ih =>
    rw [List.mapM_cons, bind_eq_ok] at h
    obtain ⟨b, t, hb, h⟩ := h
    obtain ⟨bs, t', hbs, h⟩ := bind_eq_ok.mp h
    obtain ⟨rfl, rfl⟩ := pure_eq_ok.mp h
    intro c hc
    rcases List.mem_cons.mp hc with rfl | hc
    · exact ⟨a, List.mem_cons_self, s, t, hb⟩
    · obtain ⟨a', ha', hrun⟩ := ih hbs c hc
      exact ⟨a', List.mem_cons_of_mem a ha', hrun⟩

section
variable {P : Expr → Prop}
  (hexpr : ∀ lhs s e s', s.Terminated → expr lhs s = .ok e s' → P e)
  (htype : ∀ s e s', s.Terminated → type? s = .ok (some e) s' → P e)
  (hident : ∀ id i, P (.ident id i))

include hexpr in
theorem CommaRuns.forall_mem {lhs : Bool} {n : Nat} {s s' : State} {es : List Expr}
    (h : CommaRuns (expr lhs) n s es s') (hs : s.Terminated) : ∀ e ∈ es, P e := by
  induction h with
  | full | stop => exact List.forall_mem_nil P
  | @more n s t s' e es hcomma hitem hrest ih =>
    have hnext := (Extends.next s).terminated hs
    have ht := (Extends.of_ok (.expr lhs) hitem).terminated hnext
    exact List.forall_mem_cons.mpr ⟨hexpr lhs _ _ _ hnext hitem, ih ht⟩

include hexpr in
theorem forall_commaList {lhs : Bool} {s s' : State} {list : Expr × List Expr} (hs : s.Terminated)
    (h : commaList (expr lhs) s = .ok list s') : ∀ e ∈ list.1 :: list.2, P e := by
  obtain ⟨t, hfirst, hothers⟩ := commaList_eq_ok.mp h
  have ht := (Extends.of_ok (.expr lhs) hfirst).terminated hs
  exact List.forall_mem_cons.mpr ⟨hexpr lhs _ _ _ hs hfirst, hothers.forall_mem hexpr ht⟩

include hexpr in
theorem forall_rhsList {s s' : State} {es : List Expr} (hs : s.Terminated) (h : rhsList s = .ok es s') :
    ∀ e ∈ es, P e := by
  obtain ⟨first, others, t, rfl, hlist, -⟩ := rhsList_eq_ok.mp h
  exact forall_commaList (s := { s with inRhs := true }) hexpr hs hlist

include hexpr hident in
theorem LhsRuns.forall_mem {s s' : State} {list : Expr × List Expr} (h : LhsRuns s list s') (hs : s.Terminated) :
    ∀ e ∈ list.1 :: list.2, P e := by
  have hraw : ∀ {list : Expr × List Expr} {t : State}, commaList (expr true) { s with inRhs := false } = .ok list t →
      ∀ e ∈ list.1 :: list.2, P e :=
    fun hlist => forall_commaList (s := { s with inRhs := false }) hexpr hs hlist
  cases h with
  | waiting hlist hcolon => exact hraw hlist
  | @lookedUp t u s' first first' others others' hlist hkind hfirst hothers =>
    have hkeeps : ∀ {e e' : Expr} {u u' : State}, e ∈ first :: others → resolveExpr e u = .ok e' u' → P e' := by
      intro e e' u u' he hrun
      obtain rfl | ⟨id, i, rfl⟩ := resolveExpr_eq_ok hrun
      · exact hraw hlist _ he
      · exact hident id i
    refine List.forall_mem_cons.mpr ⟨hkeeps List.mem_cons_self hfirst, fun e he => ?_⟩
    obtain ⟨a, ha, w, w', hrun⟩ := mapM_eq_ok hothers e he
    exact hkeeps (List.mem_cons_of_mem _ ha) hrun

include hexpr hident in
theorem SimpleRuns.forall_exprs {s s' : State} {made : NodeId → Stmt} (h : SimpleRuns s made s') (hs : s.Terminated)
    (id : NodeId) : ∀ e ∈ (made id).exprs, P e := by
  have hleft : ∀ {list : Expr × List Expr} {t : State}, lhsList s = .ok list t → ∀ e ∈ list.1 :: list.2, P e :=
    fun hlist => (LhsRuns.of_ok hlist).forall_mem hexpr hident hs
  cases h with
  | @assign t s' first others right op hlist hassign hright =>
    have ht := (Extends.of_ok .lhsList hlist).terminated hs
    have hR := forall_rhsList hexpr ((Extends.next t).terminated ht) hright
    exact List.forall_mem_append.mpr ⟨hleft hlist, hR⟩
  | incDec hlist | other hlist => exact List.forall_mem_singleton.mpr (hleft hlist _ List.mem_cons_self)

include hexpr htype in
theorem SpecRuns.forall_exprs {keyword : DeclKeyword} {index : Nat} {s s' : State} {sp : Spec}
    (h : SpecRuns keyword index s sp s') (hs : s.Terminated) : ∀ e ∈ sp.exprs, P e := by
  obtain @⟨t, u, v, w, x, _, names, names', type, values, hnames, htypeRun, hvalues, -, -, -⟩ := h
  have ht := (Extends.of_ok .nameList hnames).terminated hs
  have hu := (Extends.of_ok .type? htypeRun).terminated ht
  refine List.forall_mem_append.mpr ⟨fun e he => ?_, ?_⟩
  · obtain rfl := Option.mem_toList.mp he
    exact htype _ _ _ ht htypeRun
  · obtain ⟨-, hrhs⟩ | ⟨-, rfl, -⟩ := initialValues_eq_ok.mp hvalues
    · exact forall_rhsList hexpr ((Extends.next u).terminated hu) hrhs
    · exact List.forall_mem_nil P

include hexpr htype in
theorem SpecsRuns.forall_exprs {keyword : DeclKeyword} {index n : Nat} {s s' : State} {entries : List Spec}
    (h : SpecsRuns keyword index n s entries s') (hs : s.Terminated) :
    ∀ e ∈ entries.flatMap Spec.exprs, P e := by
  induction h with
  | full | stop => exact List.forall_mem_nil P
  | more hgo hfirst hrest ih =>
    have ht := (Extends.of_ok (.spec keyword _) hfirst).terminated hs
    rw [List.flatMap_cons]
    exact List.forall_mem_append.mpr ⟨(SpecRuns.of_ok hfirst).forall_exprs hexpr htype hs, ih ht⟩

include hexpr htype in
theorem DeclRuns.forall_exprs {keyword : DeclKeyword} {s s' : State} {d : Decl} (h : DeclRuns keyword s d s')
    (hs : s.Terminated) : ∀ e ∈ d.exprs, P e := by
  cases h with
  | group hkeyword hkind hlparen hentries hrparen hclose =>
    have ht := (Extends.of_ok (.expect keyword.token) hkeyword).terminated hs
    have hu := (Extends.of_ok (.expect .lparen) hlparen).terminated ht
    exact (SpecsRuns.of_ok hentries).forall_exprs hexpr htype hu
  | single hkeyword hkind hentry =>
    have ht := (Extends.of_ok (.expect keyword.token) hkeyword).terminated hs
    rw [Decl.exprs, List.flatMap_singleton]
    exact (SpecRuns.of_ok hentry).forall_exprs hexpr htype ht

include hexpr htype hident in
/-- What all expressions and types have as they are read, all those of a statement have. -/
theorem forall_exprs_stmt {s s' : State} {st : Stmt} (hs : s.Terminated) (h : stmt s = .ok st s') :
    ∀ e ∈ st.exprs, P e := by
  cases StmtRuns.of_ok h with
  | keyword hkeyword hdecl => exact (DeclRuns.of_ok hdecl).forall_exprs hexpr htype hs
  | operand hoperand hsimple hclose => exact (SimpleRuns.of_ok hsimple).forall_exprs hexpr hident hs _
  | semi | other => exact List.forall_mem_nil P

end

end Parse

end RoseLang
