import RoseLang.Proofs.Parse.Grouping

/-!
# Recovery makes progress

No statement is made forever without going past a token. A statement that goes past none is one that
recovery has stopped at once, and it may do so only a limited number of times at one token. So the
statements are bounded by the tokens, and none of the bounds that the loops of a parse carry is ever what
ends them.
-/

namespace RoseLang.Parse

variable {α β : Type}

namespace State

theorem Terminated.rest_ne_nil {s : State} (hs : s.Terminated) (hkind : s.token.kind ≠ .eof) : s.rest ≠ [] := by
  intro hrest
  have htokens := congrArg List.length (hs.tokens_next hkind)
  rw [next_of_nil hrest, List.length_cons] at htokens
  omega

theorem Terminated.length_rest_next_lt {s : State} (hs : s.Terminated) (hkind : s.token.kind ≠ .eof) :
    s.next.rest.length < s.rest.length := by
  have := List.length_pos_iff.mpr (hs.rest_ne_nil hkind)
  rw [rest_next, List.length_tail]
  omega

/-- How often recovery may still stop at the current token. -/
def stopsLeft (s : State) : Nat :=
  if s.token.pos = s.syncPos then maxRetries - s.syncCount
  else if s.syncPos.index < s.token.pos.index then maxRetries + 1
  else 0

theorem stopsLeft_le (s : State) : s.stopsLeft ≤ 11 := by
  rw [stopsLeft]
  split
  · exact Nat.le_succ_of_le (Nat.sub_le _ _)
  · split
    · exact Nat.le_refl _
    · exact Nat.zero_le _

/-- Each stop at a token uses up one of those that are left there. -/
theorem stopsLeft_stop {kinds : List Kind} {s s' : State} (h : s.stop? kinds = some s') :
    s'.tokens = s.tokens ∧ s'.stopsLeft + 1 = s.stopsLeft := by
  obtain ⟨-, ⟨hsame, hlt, rfl⟩ | ⟨hlater, rfl⟩⟩ := stop?_eq_some h
  · refine ⟨rfl, ?_⟩
    simp only [stopsLeft, hsame, ↓reduceIte]
    omega
  · refine ⟨rfl, ?_⟩
    have hne : s.token.pos ≠ s.syncPos := fun heq => by
      rw [heq] at hlater
      omega
    simp [stopsLeft, hne, hlater]

/-- Recovery stops at once, or goes past a token. -/
theorem skipTo_cases (kinds : List Kind) {s : State} (hs : s.Terminated) (heof : s.token.kind ≠ .eof) :
    s.stop? kinds = some (s.skipTo kinds) ∨ (s.skipTo kinds).rest.length < s.rest.length := by
  rw [skipTo, if_neg heof]
  cases hstop : s.stop? kinds with
  | some t => exact .inl rfl
  | none =>
    right
    dsimp only
    have hle := (stepRel_extends.skipTo kinds s.next).tokens.length_le
    simp only [tokens, List.length_cons, List.length_map] at hle
    have hlt := hs.length_rest_next_lt heof
    rw [if_neg (hs.rest_ne_nil heof)]
    omega

end State

theorem report_keeps {pos : Pos} {fault : Fault} {s s' : State} (h : report pos fault s = .ok () s') :
    ∃ findings, s' = { s with findings } := by
  rcases report_eq_ok h with rfl | ⟨rfl, -⟩
  · exact ⟨_, rfl⟩
  · exact ⟨s'.findings, rfl⟩

theorem expected_keeps {what : Expectation} {s s' : State} (h : expected what s = .ok () s') :
    ∃ findings, s' = { s with findings } := by
  rw [expected, currentToken_bind] at h
  exact report_keeps h

theorem Extends.length_rest_le {s s' : State} (h : Extends s s') : s'.rest.length ≤ s.rest.length := by
  have := h.tokens.length_le
  simpa [State.tokens] using this

/-! ### Parsers that go past a token -/

/-- If `p` comes to its end from `s`, it has gone past a token. -/
def TakesAt (p : Parser α) (s : State) : Prop := ∀ a s', p s = .ok a s' → s'.rest.length < s.rest.length

theorem TakesAt.bind {p : Parser α} {f : α → Parser β} {s : State} (hp : TakesAt p s) (hf : ∀ a, Built (f a)) :
    TakesAt (p >>= f) s := by
  intro b s'' h
  obtain ⟨a, s', hfirst, hrest⟩ := bind_eq_ok.mp h
  exact Nat.lt_of_le_of_lt (Extends.of_ok (hf a) hrest).length_rest_le (hp _ _ hfirst)

theorem TakesAt.keepDepth {p : Parser α} {s : State} (hp : TakesAt p s) : TakesAt (keepDepth p) s := by
  intro a s' h
  obtain ⟨t, ht, rfl⟩ := keepDepth_eq_ok.mp h
  exact hp a t ht

theorem TakesAt.withRhs {p : Parser α} {inRhs : Bool} {s : State} (hp : TakesAt p { s with inRhs }) :
    TakesAt (withRhs inRhs p) s := by
  intro a s' h
  obtain ⟨t, ht, rfl⟩ := withRhs_eq_ok.mp h
  exact hp a t ht

theorem TakesAt.commaList {item : Parser α} {s : State} (h : TakesAt item s) (hitem : Built item) :
    TakesAt (commaList item) s :=
  h.bind fun _ => .bounded (.commaLoop hitem) fun _ => .pure _

/-- A parser that does what another one does from a later token. -/
theorem takesAt_of_eq {p q : Parser α} {s t : State} (hq : Built q) (h : p s = q t)
    (ht : t.rest.length < s.rest.length) : TakesAt p s := by
  intro a s' hrun
  rw [h] at hrun
  exact Nat.lt_of_le_of_lt (Extends.of_ok hq hrun).length_rest_le ht

section
variable {s : State} (hs : s.Terminated) (heof : s.token.kind ≠ .eof)
include hs heof

theorem takesAt_expect (kind : Kind) : TakesAt (expect kind) s := by
  intro pos s' h
  rw [expect, currentPos_bind] at h
  obtain ⟨_, t, hrequire, h⟩ := bind_eq_ok.mp h
  rw [next_bind, pure_eq_ok] at h
  obtain ⟨-, rfl⟩ := h
  have hle := (Extends.of_ok (.require kind) hrequire).length_rest_le
  have hpos := List.length_pos_iff.mpr (hs.rest_ne_nil heof)
  rw [State.rest_next, List.length_tail]
  omega

theorem takesAt_ident : TakesAt ident s := by
  by_cases hkind : s.token.kind = .ident
  · refine takesAt_of_eq (q := do return ⟨← freshId, s.token.pos, s.token.text, .unbound⟩)
      (.bind .freshId fun _ => .pure _) ?_ (hs.length_rest_next_lt heof)
    rw [ident, currentToken_bind, if_pos hkind, next_bind]
  · have hexpect := takesAt_expect hs heof .ident
    have htakes := hexpect.bind fun pos =>
      .bind .freshId fun id => .pure (⟨id, pos, Ident.blank, .unbound⟩ : Ident)
    intro i s' h
    rw [ident, currentToken_bind, if_neg hkind] at h
    exact htakes _ _ h

theorem takesAt_nameList : TakesAt nameList s := by
  rw [nameList_eq]
  exact ((takesAt_ident hs heof).commaList .ident).bind fun _ => .pure _

theorem takesAt_spec (keyword : DeclKeyword) (index : Nat) : TakesAt (spec keyword index) s := by
  intro sp s' h
  rw [spec, currentPos_bind] at h
  refine (takesAt_nameList hs heof).bind (fun names => ?_) _ _ h
  exact .bind .type? fun _ => .bind .initialValues fun _ => .bind .expectSemi fun _ => .bind (.reportAny _)
    fun _ => .bind .freshId fun _ => .bind (.mapM (.declare _ _ _) _) fun _ => .pure _

theorem takesAt_decl (keyword : DeclKeyword) : TakesAt (decl keyword) s := by
  refine (takesAt_expect hs heof keyword.token).bind fun keywordPos => .bind .currentKind fun kind => ?_
  split
  · exact .bind (.expect _) fun _ => .bounded (.specs keyword 0) fun _ => .bind (.expect _) fun _ =>
      .bind .expectSemi fun _ => .bind .freshId fun _ => .pure _
  · exact .bind (.spec _ _) fun _ => .bind .freshId fun _ => .pure _

/-! Where no recovery stops, an expression always takes a token. -/

variable (hstarts : s.token.kind ∉ statementStarts)
include hstarts

theorem takesAt_skippedExpr {complaint : Parser Unit}
    (hcomplaint : ∀ {t}, complaint s = .ok () t → ∃ findings, t = { s with findings }) :
    TakesAt (skippedExpr statementStarts complaint) s := by
  intro e s' h
  obtain ⟨t, ht, -, rfl⟩ := skippedExpr_eq_ok h
  obtain ⟨findings, rfl⟩ := hcomplaint ht
  rcases State.skipTo_cases _ (s := { s with findings }) hs heof with hstop | htakes
  · exact absurd (State.stop?_eq_some hstop).1 hstarts
  · exact htakes

theorem takesAt_tooDeep : TakesAt tooDeep s := by
  refine takesAt_skippedExpr hs heof hstarts fun h => ?_
  rw [currentPos_bind] at h
  exact report_keeps h

theorem takesAt_unary (room : Nat) (lhs : Bool) : TakesAt (unary room lhs) s := by
  have hnext := hs.length_rest_next_lt heof
  have hinside : s.inside.rest.length < s.rest.length := by
    rwa [State.inside, State.rest_next, ← s.rest_next]
  intro e s' h
  have hruns : Runs room (.unary lhs) s e s' := .of_ok h
  cases hruns with
  | literal => exact hnext
  | name hkind hname hresolve =>
    have htakes := takesAt_ident hs heof _ _ hname
    exact Nat.lt_of_le_of_lt (Extends.of_ok (.resolveIf _ _) hresolve).length_rest_le htakes
  | missing hop hlparen hliteral hident hskipped =>
    exact takesAt_skippedExpr hs heof hstarts (fun ht => expected_keeps ht) _ _ hskipped
  | tooDeep hopens hskipped => exact takesAt_tooDeep hs heof hstarts _ _ hskipped
  | sign hop hoperand => exact Nat.lt_of_le_of_lt hoperand.extends.length_rest_le hinside
  | paren hlparen hinner hrparen =>
    have hclose := (Extends.of_ok (.expect .rparen) hrparen).length_rest_le
    exact Nat.lt_of_le_of_lt (Nat.le_trans hclose hinner.extends.length_rest_le) hinside

theorem takesAt_expr (lhs : Bool) : TakesAt (expr lhs) s := by
  intro e s' h
  rw [expr, roomLeft_bind] at h
  exact ((takesAt_unary hs heof hstarts _ lhs).bind fun first => .chain _ lhs 1 first).keepDepth _ _ h

theorem takesAt_lhsList : TakesAt lhsList s := by
  have hexpr := takesAt_expr (s := { s with inRhs := false }) hs heof hstarts true
  have hlist : TakesAt (exprList true) _ := exprList_eq true ▸ hexpr.commaList (.expr true)
  refine hlist.withRhs.bind fun list => .bind .currentKind fun kind => ?_
  split
  · exact .pure _
  · exact .bind (.resolveExpr _) fun _ => .bind (.mapM .resolveExpr _) fun _ => .pure _

theorem takesAt_simple : TakesAt simple s := by
  refine (takesAt_lhsList hs heof hstarts).bind fun list => .bind .currentToken fun t => ?_
  split
  · exact .bind .next fun _ => .bind .rhsList fun _ => .pure _
  · refine .bind (.reportAny _) fun _ => ?_
    split
    · exact .bind .next fun _ => .pure _
    · exact .bind .next fun _ => .pure _
    · exact .pure _

end

/-! ### Loops inside a statement -/

/-- The loops that start in the state `s` come to their end by themselves; the bound that each of them
carries is never what ends them. -/
structure LoopsEnd (s : State) : Prop where
  names {names : List Ident} {t : State} : moreNames s.rest.length s = .ok names t → t.token.kind ≠ .comma
  exprs {lhs : Bool} {es : List Expr} {t : State} :
    moreExprs lhs s.rest.length s = .ok es t → t.token.kind ≠ .comma
  specs {keyword : DeclKeyword} {index : Nat} {entries : List Spec} {t : State} :
    specs keyword index s.rest.length s = .ok entries t → t.token.kind = .rparen ∨ t.token.kind = .eof
  skipTo (kinds : List Kind) :
    (s.skipTo kinds).token.kind = .eof ∨ (s.skipTo kinds).token.kind ∈ kinds

theorem State.Terminated.eof_of_length_le_zero {s : State} (hs : s.Terminated) (h : s.rest.length ≤ 0) :
    s.token.kind = .eof := by
  refine Decidable.byContradiction fun heof => ?_
  exact hs.rest_ne_nil heof (List.eq_nil_of_length_eq_zero (Nat.le_zero.mp h))

theorem CommaRuns.ends {item : Parser α} {n : Nat} {s s' : State} {as : List α} (h : CommaRuns item n s as s')
    (hitem : Built item) (hs : s.Terminated) (hn : s.rest.length ≤ n) : s'.token.kind ≠ .comma := by
  induction h with
  | full =>
    rw [hs.eof_of_length_le_zero hn]
    decide
  | stop hkind => exact hkind
  | @more n s t s' a as hcomma hfirst hrest ih =>
    have hlt := hs.length_rest_next_lt (by rw [hcomma]; decide)
    have hle := (Extends.of_ok hitem hfirst).length_rest_le
    exact ih (((Extends.next s).trans (.of_ok hitem hfirst)).terminated hs) (by omega)

theorem SpecsRuns.ends {keyword : DeclKeyword} {index n : Nat} {s s' : State} {entries : List Spec}
    (h : SpecsRuns keyword index n s entries s') (hs : s.Terminated) (hn : s.rest.length ≤ n) :
    s'.token.kind = .rparen ∨ s'.token.kind = .eof := by
  induction h with
  | full => exact .inr (hs.eof_of_length_le_zero hn)
  | stop hend => exact hend
  | @more index n s t s' first others hgo hfirst hrest ih =>
    have hlt := takesAt_spec hs (not_or.mp hgo).2 keyword index _ _ hfirst
    exact ih ((Extends.of_ok (.spec keyword index) hfirst).terminated hs) (by omega)

theorem State.Terminated.loopsEnd {s : State} (hs : s.Terminated) : LoopsEnd s where
  names h := (CommaRuns.of_ok (moreNames_eq _ ▸ h)).ends .ident hs (Nat.le_refl _)
  exprs h := (CommaRuns.of_ok (moreExprs_eq _ _ ▸ h)).ends (.expr _) hs (Nat.le_refl _)
  specs h := (SpecsRuns.of_ok h).ends hs (Nat.le_refl _)
  skipTo kinds := skipTo_stops kinds hs

/-! ### Statements -/

theorem not_mem_statementStarts_of_startsOperand {kind : Kind} (h : startsOperand kind = true) :
    kind ∉ statementStarts := by
  cases kind with
  | _ => first | decide | exact absurd h (by decide)

/-- A statement goes past a token, or uses up one of the stops that are left at the current one. -/
theorem stmt_takes_or_stops {s s' : State} {st : Stmt} (hs : s.Terminated) (heof : s.token.kind ≠ .eof)
    (h : stmt s = .ok st s') :
    s'.rest.length < s.rest.length ∨ s'.rest.length = s.rest.length ∧ s'.stopsLeft + 1 = s.stopsLeft := by
  cases StmtRuns.of_ok h with
  | keyword hkeyword hdecl =>
    have htakes := takesAt_decl hs heof _ _ _ hdecl
    exact .inl htakes
  | semi => exact .inl (hs.length_rest_next_lt heof)
  | operand hoperand hsimple hclose =>
    have hstarts := not_mem_statementStarts_of_startsOperand hoperand
    have htakes := takesAt_simple hs heof hstarts _ _ hsimple
    exact .inl (Nat.lt_of_le_of_lt (Extends.of_ok .expectSemi hclose).length_rest_le htakes)
  | other hkeyword hoperand hsemi hskipped =>
    obtain ⟨u, hcomplaint, -, rfl⟩ := skipped_eq_ok hskipped
    obtain ⟨findings, rfl⟩ := expected_keeps hcomplaint
    rcases State.skipTo_cases statementStarts (s := { s with findings }) hs heof with hstop | htakes
    · obtain ⟨htokens, hstops⟩ := State.stopsLeft_stop hstop
      have hrest := congrArg List.length htokens
      simp only [State.tokens, List.length_cons, List.length_map, Nat.add_right_cancel_iff] at hrest
      exact .inr ⟨hrest, hstops⟩
    · exact .inl htakes

/-- The number of statements that there may still be: for each token that is left those that recovery
may stop, and the one that goes past it. -/
def State.roundsLeft (s : State) : Nat := 12 * s.rest.length + s.stopsLeft - 11

namespace Rounds

/-- Each statement made is one less that there may still be. -/
theorem add_roundsLeft_le {n : Nat} {s t : State} (h : Rounds n s t) (hs : s.Terminated) :
    n + t.roundsLeft ≤ s.roundsLeft := by
  induction h with
  | none s => exact Nat.le_of_eq (Nat.zero_add _)
  | @made n s t u st heof hst _ ih =>
    have hmade := ih ((Extends.of_ok .stmt hst).terminated hs)
    have hprogress := stmt_takes_or_stops hs heof hst
    have hlt : t.roundsLeft < s.roundsLeft := by
      have hpos := List.length_pos_iff.mpr (hs.rest_ne_nil heof)
      have hle := t.stopsLeft_le
      rw [State.roundsLeft, State.roundsLeft]
      omega
    have hsame : State.roundsLeft { t with stmts := t.stmts ++ [st] } = t.roundsLeft := rfl
    omega

theorem le_of_tokens_eq {n : Nat} {s t : State} (h : Rounds n s t) (hs : s.Terminated)
    (htokens : t.tokens = s.tokens) : n ≤ 11 := by
  have hrounds := h.add_roundsLeft_le hs
  have hrest := congrArg List.length htokens
  simp only [State.tokens, List.length_cons, List.length_map, Nat.add_right_cancel_iff] at hrest
  have hle := s.stopsLeft_le
  rw [State.roundsLeft, State.roundsLeft, hrest] at hrounds
  omega

end Rounds

/-- The statements from `s` on come to their end after `n` of them, in the state `t`: at the end token, or
because the parse is stopped within the statement that follows. -/
def EndsAfter (n : Nat) (s t : State) : Prop :=
  ∃ u, Rounds n s u ∧
    (u.token.kind = .eof ∧ t = u ∨ u.token.kind ≠ .eof ∧ stmt u = .error .tooManyErrors t)

theorem EndsAfter.length_stmts {n : Nat} {s t : State} (h : EndsAfter n s t) :
    t.stmts.length = s.stmts.length + n := by
  obtain ⟨u, hrounds, ⟨-, rfl⟩ | ⟨-, hstop⟩⟩ := h
  · exact hrounds.length_stmts
  · rw [(Extends.of_error .stmt hstop).stmts, hrounds.length_stmts]

/-- With enough rounds, running out of them is not what ends the statements. -/
theorem stmts_endsAfter {n : Nat} {s : State} (hs : s.Terminated) (hn : s.roundsLeft ≤ n) :
    ∃ k, EndsAfter k s (endState (stmts n) s) := by
  obtain ⟨k, t, hrounds, ⟨hend, hrun⟩ | ⟨heof, e, u, hst, hrun⟩⟩ := stmts_rounds n s
  · refine ⟨k, t, hrounds, .inl ⟨?_, endState_of_ok hrun⟩⟩
    rcases hend with rfl | heof
    · refine (hrounds.terminated hs).eof_of_length_le_zero ?_
      have hmade := hrounds.add_roundsLeft_le hs
      have hleft : t.roundsLeft = 12 * t.rest.length + t.stopsLeft - 11 := rfl
      omega
    · exact heof
  · refine ⟨k, t, hrounds, .inr ⟨heof, ?_⟩⟩
    rw [endState, hrun]
    exact hst

/-! ### Files -/

theorem length_rest_firstState (file : SourceFile) (source : String) (allErrors : Bool) :
    (firstState file source allErrors).rest.length =
      (Lexer.ofText source ⟨file.base⟩).tokenize.1.countP (·.kind ≠ .eof) := by
  have htokens := tokens_next_start file allErrors (Lexer.ofText source ⟨file.base⟩)
  obtain ⟨us, t, hus, ht, hmem⟩ := (Lexer.ofText source ⟨file.base⟩).endsOnce_lexemes
  have hlength := congrArg List.length (htokens.trans hus)
  rw [State.tokens, List.length_cons, List.length_map, List.length_append, List.length_singleton,
    Nat.add_right_cancel_iff] at hlength
  rw [Lexer.tokenize, hus, List.countP_append, List.countP_eq_length.mpr (by simpa using hmem)]
  simp only [firstState, hlength, List.countP_singleton, ht]
  simp

/-- A file has more rounds than its statements need. -/
theorem roundsLeft_le_maxStmts {s : State} {n : Nat} (h : s.rest.length ≤ n) : s.roundsLeft ≤ maxStmts n := by
  have hle := s.stopsLeft_le
  show 12 * s.rest.length + s.stopsLeft - 11 ≤ 12 * n
  omega

theorem lastState_endsAfter {file : SourceFile} {source : String} {allErrors : Bool}
    (h : (firstState file source allErrors).findings = []) :
    EndsAfter (lastState file source allErrors).stmts.length (firstState file source allErrors)
      (lastState file source allErrors) := by
  obtain ⟨k, hk⟩ := stmts_endsAfter (terminated_firstState file source allErrors)
    (roundsLeft_le_maxStmts (length_rest_firstState_le file source allErrors))
  rw [← lastState_of_clean h] at hk
  have hlength := hk.length_stmts
  rw [stmts_firstState, List.length_nil, Nat.zero_add] at hlength
  rwa [hlength]

theorem parse_endsAfter (file : SourceFile) (source : String) (allErrors : Bool) :
    let result := file.parse source allErrors
    let s := firstState file source allErrors
    s.findings ≠ [] ∧ result.file.stmts = [] ∨
      ∃ t, EndsAfter result.file.stmts.length s t ∧ result = t.result := by
  intro result s
  by_cases hfirst : s.findings = []
  · exact .inr ⟨lastState file source allErrors, lastState_endsAfter hfirst, rfl⟩
  · refine .inl ⟨hfirst, ?_⟩
    show (lastState file source allErrors).stmts = []
    rw [lastState_of_faulty hfirst]
    exact (Extends.next _).stmts

/-- A parse comes to its end, since recovery makes progress: there are at most twelve statements for each
token, and at most eleven in a row leave all tokens that are left. -/
theorem parse_progress (file : SourceFile) (source : String) (allErrors : Bool) :
    let result := file.parse source allErrors
    let s := firstState file source allErrors
    (s.findings ≠ [] ∧ result.file.stmts = [] ∨
        ∃ t, EndsAfter result.file.stmts.length s t ∧ result = t.result) ∧
      result.file.stmts.length ≤ 12 * (Lexer.ofText source ⟨file.base⟩).tokenize.1.countP (·.kind ≠ .eof) ∧
      (∀ m n t u, Rounds m s t → Rounds n t u → u.tokens = t.tokens → n ≤ 11) ∧
      ∀ t : State, t.Terminated → LoopsEnd t := by
  intro result s
  have hs : s.Terminated := terminated_firstState file source allErrors
  have hrest : s.rest.length = _ := length_rest_firstState file source allErrors
  have hends := parse_endsAfter file source allErrors
  refine ⟨hends, ?_, fun m n t u ht hu htokens => hu.le_of_tokens_eq (ht.terminated hs) htokens,
    fun t ht => ht.loopsEnd⟩
  rcases hends with ⟨-, hnone⟩ | ⟨t, ⟨u, hrounds, -⟩, -⟩
  · rw [hnone]
    exact Nat.zero_le _
  · have hle : result.file.stmts.length + u.roundsLeft ≤ s.roundsLeft := hrounds.add_roundsLeft_le hs
    have hleft : s.roundsLeft = 12 * s.rest.length + s.stopsLeft - 11 := rfl
    have hstops := s.stopsLeft_le
    omega

/-- Recovery stops eleven times at the only token before it goes on to the end. -/
theorem parse_progress_if :
    let file : SourceFile := ⟨"", 1, 2, .ofText "if"⟩
    let s := firstState file "if" false
    (file.parse "if" false).file.stmts.length = 12 ∧
      (Lexer.ofText "if" ⟨1⟩).tokenize.1.countP (·.kind ≠ .eof) = 1 ∧
      (file.parse "if" false).file.stmts.length ≤ 12 * 1 ∧
      (∀ n t, Rounds n s t → t.tokens = s.tokens → n ≤ 11) ∧ LoopsEnd s := by
  intro file s
  have htokens : (Lexer.ofText "if" ⟨1⟩).tokenize.1.countP (·.kind ≠ .eof) = 1 := by decide +kernel
  obtain ⟨-, hle, hstalled, hloops⟩ := parse_progress file "if" false
  exact ⟨by decide +kernel, htokens, htokens ▸ hle, fun n t ht => hstalled 0 n s t (.none s) ht,
    hloops s (terminated_firstState file "if" false)⟩

end RoseLang.Parse
