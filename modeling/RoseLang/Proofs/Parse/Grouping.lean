import RoseLang.Proofs.Parse.Runs
import RoseLang.Proofs.Syntax.Grouping

/-!
# Parsing by precedence groups by precedence

Every expression that a parse makes is grouped, however malformed the text. The invariant of a chain
joins three facts: what has been read is grouped, it binds at least as tightly as the chain asks, and
the operator at which the chain stops binds less tightly, so that it admits the chain on its left.
-/

namespace RoseLang.Parse

namespace State

/-- Recovery ends at the end of the file or at a token it looked for. -/
theorem skipTo_stops (kinds : List Kind) {s : State} (hs : s.Terminated) :
    (s.skipTo kinds).token.kind = .eof ∨ (s.skipTo kinds).token.kind ∈ kinds := by
  fun_induction State.skipTo kinds s with
  | case1 s heof => exact .inl heof
  | case2 s heof s' hstop =>
    obtain ⟨hmem, ⟨-, -, rfl⟩ | ⟨-, rfl⟩⟩ := stop?_eq_some hstop
    all_goals exact .inr hmem
  | case3 s heof hstop hrest =>
    have := hs.tokens_next heof
    rw [tokens, hrest, next_of_nil hrest, tokens, hrest] at this
    exact absurd this (by simp)
  | case4 s heof hstop hrest ih => exact ih ((Extends.next s).terminated hs)

/-- No binary operator starts a statement. -/
theorem binaryOp?_skipTo {s : State} (hs : s.Terminated) :
    (s.skipTo statementStarts).binaryOp? = none := by
  have hkind := skipTo_stops statementStarts hs
  rw [binaryOp?]
  generalize (s.skipTo statementStarts).token.kind = kind at hkind
  have hnone : ∀ k : Kind, k = .eof ∨ k ∈ statementStarts → k ≠ .assign ∧ BinaryOp.ofToken? k = none := by
    intro k hk
    cases k <;> first | exact ⟨by decide, rfl⟩ | exact absurd hk (by decide)
  obtain ⟨hne, hop⟩ := hnone kind hkind
  simp only [hne, decide_false, Bool.and_false, Bool.false_eq_true, ↓reduceIte, hop]

end State

theorem skipped_eq_ok {kinds : List Kind} {complaint : Parser Unit} {s s' : State} {span : Span}
    (h : skipped kinds complaint s = .ok span s') :
    ∃ t, complaint s = .ok () t ∧ span = ⟨s.token.pos, (t.skipTo kinds).token.pos⟩ ∧ s' = t.skipTo kinds := by
  rw [skipped, currentPos_bind] at h
  obtain ⟨_, t, ht, h⟩ := bind_eq_ok.mp h
  rw [skipTo_bind, currentPos_bind, pure_eq_ok] at h
  exact ⟨t, ht, h.1.symm, h.2.symm⟩

theorem skippedExpr_eq_ok {kinds : List Kind} {complaint : Parser Unit} {s s' : State} {e : Expr}
    (h : skippedExpr kinds complaint s = .ok e s') :
    ∃ t, complaint s = .ok () t ∧
      e = .bad (t.skipTo kinds).nextId s.token.pos (t.skipTo kinds).token.pos ∧
      s' = { t.skipTo kinds with nextId := (t.skipTo kinds).nextId + 1 } := by
  obtain ⟨span, u, hspan, h⟩ := bind_eq_ok.mp h
  rw [freshId_bind, pure_eq_ok] at h
  obtain ⟨rfl, rfl⟩ := h
  obtain ⟨t, ht, rfl, rfl⟩ := skipped_eq_ok hspan
  exact ⟨t, ht, rfl, rfl⟩

/-- What stands for an expression that is nested too deeply is followed by no operator. -/
theorem tooDeep_eq_ok {s s' : State} {e : Expr} (hs : s.Terminated) (h : tooDeep s = .ok e s') :
    (∃ id start stop, e = .bad id start stop) ∧ s'.binaryOp? = none := by
  obtain ⟨t, ht, rfl, rfl⟩ := skippedExpr_eq_ok h
  have hext : Extends s t := Extends.of_ok (.bind .currentPos fun pos => .report pos .tooDeep) ht
  exact ⟨⟨_, _, _, rfl⟩, State.binaryOp?_skipTo (hext.terminated hs)⟩

theorem resolveIf_eq_ok {now : Bool} {e e' : Expr} {s s' : State} (h : resolveIf now e s = .ok e' s') :
    e' = e ∨ ∃ id i, e' = .ident id i := by
  rw [resolveIf] at h
  split at h
  · exact resolveExpr_eq_ok h
  · exact .inl (pure_eq_ok.mp h).1.symm

/-- What is made of each part. The left operand of a chain is one that the current operator admits. -/
private abbrev Part.Groups (s : State) (e : Expr) (s' : State) : Part → Prop
  | unary _ => e.Grouped ∧ e.binaryOp? = none
  | chain _ floor left => left.Grouped → left.BindsAtLeast floor →
      (∀ op, s.binaryOp? = some op → op.AdmitsLeft left) →
      e.Grouped ∧ e.BindsAtLeast floor ∧ ∀ op, s'.binaryOp? = some op → op.precedence < floor
  | operand _ floor => e.Grouped ∧ e.BindsAtLeast floor ∧ ∀ op, s'.binaryOp? = some op → op.precedence < floor

/-- Both alternatives of a chain that goes on begin alike: the operator is read, and a name on its left
may be looked up. -/
private theorem left_grouped {lhs : Bool} {left left' : Expr} {op : BinaryOp}
    {opPos : Pos} {s t u : State} (hs : s.Terminated) (hleft : left.Grouped) (hadmits : op.AdmitsLeft left)
    (hexpect : expect op.token s = .ok opPos t) (hresolve : resolveIf lhs left t = .ok left' u) :
    left'.Grouped ∧ op.AdmitsLeft left' ∧ u.Terminated := by
  have ht := (Extends.of_ok (.expect op.token) hexpect).terminated hs
  have hu := (Extends.of_ok (.resolveIf lhs left) hresolve).terminated ht
  obtain rfl | ⟨id, i, rfl⟩ := resolveIf_eq_ok hresolve
  · exact ⟨hleft, hadmits, hu⟩
  · exact ⟨trivial, BinaryOp.admitsLeft_of_none rfl, hu⟩

private theorem Runs.groups {room : Nat} {part : Part} {s s' : State} {e : Expr} (h : Runs room part s e s')
    (hs : s.Terminated) : part.Groups s e s' := by
  induction h with
  | literal => exact ⟨trivial, rfl⟩
  | name hkind hname hresolve =>
    obtain rfl | ⟨id, i, rfl⟩ := resolveIf_eq_ok hresolve
    all_goals exact ⟨trivial, rfl⟩
  | missing hop hlparen hliteral hident hskipped =>
    obtain ⟨t, -, rfl, -⟩ := skippedExpr_eq_ok hskipped
    exact ⟨trivial, rfl⟩
  | tooDeep hopens hskipped =>
    obtain ⟨⟨_, _, _, rfl⟩, -⟩ := tooDeep_eq_ok hs hskipped
    exact ⟨trivial, rfl⟩
  | sign hop hoperand ih =>
    obtain ⟨hgrouped, hnone⟩ := ih hs.inside
    exact ⟨⟨hnone, hgrouped⟩, rfl⟩
  | paren hlparen hinner hrparen ih => exact ⟨(ih hs.inside).1, rfl⟩
  | stop hstop => exact fun hleft hbinds _ => ⟨hleft, hbinds, hstop⟩
  | @noRoom floor lhs s t u v op opPos left left' right hop hfloor hexpect hresolve hskipped =>
    intro hleft hbinds hadmits
    obtain ⟨hleft', hadmits', hu⟩ := left_grouped hs hleft (hadmits op hop) hexpect hresolve
    obtain ⟨⟨_, _, _, rfl⟩, hnone⟩ := tooDeep_eq_ok hu hskipped
    refine ⟨⟨hadmits', BinaryOp.admitsRight_of_none rfl, hleft', trivial⟩, ?_, fun op' h => ?_⟩
    · intro op' h
      cases h
      exact hfloor
    · change v.binaryOp? = some op' at h
      rw [hnone] at h
      cases h
  | @operator room floor lhs s t u v s' op opPos left left' right e hop hfloor hexpect hresolve hright hrest
      ihright ihrest =>
    intro hleft hbinds hadmits
    obtain ⟨hleft', hadmits', hu⟩ := left_grouped hs hleft (hadmits op hop) hexpect hresolve
    obtain ⟨hgrouped, htight, hstops⟩ := ihright hu
    have hjoined : (Expr.binary v.nextId op opPos left' right).Grouped :=
      ⟨hadmits', BinaryOp.admitsRight_iff.mpr htight, hleft', hgrouped⟩
    refine ihrest (hright.extends.terminated hu) hjoined ?_
      (fun op' h' => BinaryOp.admitsLeft_of_lt rfl (hstops op' h'))
    intro op' h'
    cases h'
    exact hfloor
  | operand hfirst hrest ihfirst ihrest =>
    obtain ⟨hgrouped, hnone⟩ := ihfirst hs
    exact ihrest (hfirst.extends.terminated hs) hgrouped (Expr.bindsAtLeast_of_none hnone)
      fun op _ => BinaryOp.admitsLeft_of_none hnone

theorem expr_grouped {lhs : Bool} {s s' : State} {e : Expr} (hs : s.Terminated)
    (h : expr lhs s = .ok e s') : e.Grouped := ((expr_runs h).groups hs).1

theorem TypeRuns.grouped {room : Nat} {s s' : State} {type : Expr} (h : TypeRuns room s type s') :
    type.Grouped := by
  induction h with
  | name => trivial
  | tooDeep hlparen hskipped =>
    obtain ⟨t, -, rfl, -⟩ := skippedExpr_eq_ok hskipped
    trivial
  | paren _ _ _ ih => exact ih
  | missing hlparen hstart hskipped =>
    obtain ⟨t, -, rfl, -⟩ := skippedExpr_eq_ok hskipped
    trivial

theorem resolveType_grouped {type type' : Expr} {s s' : State} (hgrouped : type.Grouped)
    (h : resolveType type s = .ok type' s') : type'.Grouped := by
  induction type generalizing type' s s' with
  | paren id lparen inner rparen ih =>
    obtain ⟨inner', t, hinner, h⟩ := bind_eq_ok.mp h
    cases h
    show inner'.Grouped
    exact ih hgrouped hinner
  | ident id i =>
    rw [resolveType] at h
    split at h
    · cases h
      trivial
    · rw [resolve_bind] at h
      obtain ⟨_, t, -, h⟩ := bind_eq_ok.mp h
      cases h
      trivial
  | _ =>
    cases h
    exact hgrouped

theorem type?_grouped {s s' : State} {type : Expr} (h : type? s = .ok (some type) s') : type.Grouped := by
  obtain ⟨bare, t, type, hsome, hbare, htype⟩ | ⟨hnone, -⟩ := type?_runs h
  · cases hsome
    exact resolveType_grouped hbare.grouped htype
  · cases hnone

/-- Precedence and grouping to the left or right hold in every tree, whatever the text. -/
theorem parse_grouped (file : SourceFile) (source : String) (allErrors : Bool) :
    ∀ st ∈ (file.parse source allErrors).file.stmts, ∀ e ∈ st.exprs, e.Grouped := by
  refine forall_stmts_parse (fun s st s' hs hst => ?_) file source allErrors
  exact forall_exprs_stmt (fun _ _ _ _ hs h => expr_grouped hs h)
    (fun _ _ _ _ h => type?_grouped h) (fun _ _ => trivial) hs hst

theorem parse_grouped_differences :
    ∃ st ∈ ((⟨"", 1, 9, .ofText "a - b - c"⟩ : SourceFile).parse "a - b - c" false).file.stmts,
      ∃ e ∈ st.exprs, e.binaryOp? = some .sub ∧ e.Grouped := by
  have hstmts : ((⟨"", 1, 9, .ofText "a - b - c"⟩ : SourceFile).parse "a - b - c" false).file.stmts =
      [.expr 8 (.binary 7 .sub ⟨7⟩
        (.binary 4 .sub ⟨3⟩ (.ident 1 ⟨0, ⟨1⟩, "a", .unresolved⟩) (.ident 3 ⟨2, ⟨5⟩, "b", .unresolved⟩))
        (.ident 6 ⟨5, ⟨9⟩, "c", .unresolved⟩))] := by
    decide +kernel
  refine ⟨_, hstmts ▸ List.mem_singleton_self _, _, List.mem_singleton_self _, rfl, ?_⟩
  exact parse_grouped _ _ _ _ (hstmts ▸ List.mem_singleton_self _) _ (List.mem_singleton_self _)

end RoseLang.Parse
