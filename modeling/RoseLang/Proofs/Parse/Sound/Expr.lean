import RoseLang.Proofs.Parse.Reading
import RoseLang.Proofs.Syntax.Grammar

/-!
# Expressions and types read without a fault

What a parser for expressions makes without a fault is a tree of exactly the tokens that were read. The
induction is on the levels that may still be entered: it shows at the same time that the tree needs no
more of them. The chain is longer by one operator each time it enters a level, so that the levels it has
used up are the operators on its left spine.
-/

namespace RoseLang.Parse

open Grammar (IsExpr IsType IsTypeOption IsName)

/-- The tokens read from `s` to `s'` are those of `e`, which needs at most `room` levels. -/
structure ReadsExpr (room : Nat) (s : State) (e : Expr) (s' : State) : Prop where
  reads : ∃ ts, Reads s ts s' ∧ Mark.FitAll e.marks ts
  complete : e.Complete
  levels : e.levels ≤ room

theorem Reads.setDepth {s s' : State} {ts : List Token} (h : Reads s ts s') (depth : Nat) :
    Reads { s with depth } ts { s' with depth } :=
  ⟨h.tokens, h.quiet, h.scopes, rfl, h.inRhs⟩

theorem Reads.freshId {s s' : State} {ts : List Token} (h : Reads s ts s') :
    Reads s ts { s' with nextId := s'.nextId + 1 } :=
  ⟨h.tokens, h.quiet, h.scopes, h.depth, h.inRhs⟩

theorem Reads.setRhs {s s' : State} {ts : List Token} {inRhs : Bool}
    (h : Reads { s with inRhs } ts s') : Reads s ts { s' with inRhs := s.inRhs } :=
  ⟨h.tokens, h.quiet, h.scopes, h.depth, rfl⟩

theorem Reads.withDepth {s : State} (s' : State) {ts : List Token} {depth depth' : Nat}
    (h : Reads s ts { s' with depth }) (heq : depth = depth') : Reads s ts { s' with depth := depth' } :=
  heq ▸ h

/-- What is read inside a level, together with the token that opens it. -/
theorem Reads.level {s s' : State} {ts : List Token} (hs : s.Terminated) (heof : s.token.kind ≠ .eof)
    (h : Reads s.inside ts s') :
    Reads s (s.token :: ts) { s' with depth := s'.depth - 1 } := by
  have hopen : Reads { s with depth := s.depth + 1 } [s.token] s.inside :=
    .next (s := { s with depth := s.depth + 1 }) hs heof
  have hall := hopen.trans h
  refine ⟨hall.tokens, hall.quiet, hall.scopes, ?_, hall.inRhs⟩
  show s'.depth - 1 = s.depth
  rw [hall.depth]
  exact Nat.add_sub_cancel s.depth 1

theorem ident_reads {s s' : State} {i : Ident} (hs : s.Terminated) (hclean : s'.findings = [])
    (h : ident s = .ok i s') : Reads s [s.token] s' ∧ i.mark.Fits s.token := by
  obtain ⟨hkind, rfl, rfl⟩ := ident_clean hclean h
  refine ⟨(Reads.next hs (by rw [hkind]; decide)).freshId, ?_⟩
  exact Mark.worded_fits_iff.mpr ⟨hkind, rfl, rfl⟩

/-- Looking a name up leaves an expression with its tokens. -/
theorem resolveIf_reads {now : Bool} {e e' : Expr} {s s' : State} (h : resolveIf now e s = .ok e' s') :
    Reads s [] s' ∧ e'.marks = e.marks ∧ (e.Complete → e'.Complete) ∧ e'.levels = e.levels ∧
      e'.spine = e.spine := by
  rw [resolveIf] at h
  split at h
  · obtain ⟨hreads, rfl | ⟨id, i, binding, rfl, rfl⟩⟩ := resolveExpr_reads h
    · exact ⟨hreads, rfl, id, rfl, rfl⟩
    · exact ⟨hreads, rfl, fun _ => trivial, rfl, rfl⟩
  · obtain ⟨rfl, rfl⟩ := pure_eq_ok.mp h
    exact ⟨.refl s, rfl, id, rfl, rfl⟩

/-- What each part reads without a fault. A chain starts with a left operand that has been read before. -/
private abbrev Part.ReadsFrom (room : Nat) (s : State) (e : Expr) (s' : State) : Part → Prop
  | unary _ => ReadsExpr room s e s' ∧ e.spine = 0
  | chain _ _ left => ∃ ts ms, Reads s ts { s' with depth := s.depth } ∧ e.marks = left.marks ++ ms ∧
      Mark.FitAll ms ts ∧ (left.Complete → e.Complete) ∧ e.levels ≤ max left.levels (left.spine + room)
  | operand _ _ => ReadsExpr room s e s'

private theorem name_reads {room : Nat} {now : Bool} {s t s' : State} {i : Ident} {e : Expr} (hs : s.Terminated)
    (hclean : s'.findings = []) (hname : ident s = .ok i t)
    (hresolve : resolveIf now (.ident t.nextId i) { t with nextId := t.nextId + 1 } = .ok e s') :
    ReadsExpr room s e s' ∧ e.spine = 0 := by
  have ht : t.findings = [] := (Extends.of_ok (.resolveIf _ _) hresolve).clean hclean
  obtain ⟨hlook, hmarks, hcomplete, hlevels, hspine⟩ := resolveIf_reads hresolve
  obtain ⟨hread, hfits⟩ := ident_reads hs ht hname
  refine ⟨⟨⟨_, hread.freshId.trans hlook, ?_⟩, hcomplete trivial, ?_⟩, hspine⟩
  · rw [hmarks]
    exact .single hfits
  · rw [hlevels]
    exact Nat.zero_le _

private theorem paren_reads {room : Nat} {s t u : State} {inner : Expr} {rparen : Pos} (hs : s.Terminated)
    (hlparen : s.token.kind = .lparen) (hinner : ReadsExpr room { s.inside with inRhs := true } inner t)
    (hu : u.findings = [])
    (hrparen : expect .rparen { t with inRhs := s.inside.inRhs, depth := t.depth - 1 } = .ok rparen u) :
    ReadsExpr (room + 1) s (.paren u.nextId s.token.pos inner rparen) { u with nextId := u.nextId + 1 } := by
  obtain ⟨⟨ts, hreads, hfit⟩, hcomplete, hlevels⟩ := hinner
  obtain ⟨hkind, rfl, rfl⟩ := expect_clean hu hrparen
  have hinside := hreads.setRhs.level hs (by rw [hlparen]; decide)
  have hclose := Reads.next (hinside.terminated hs) (by rw [hkind]; decide)
  refine ⟨⟨_, (hinside.trans hclose).freshId, .append (.cons ?_ hfit) (.single ?_)⟩, hcomplete, ?_⟩
  · exact Mark.placed_fits_iff.mpr ⟨hlparen, rfl⟩
  · exact Mark.placed_fits_iff.mpr ⟨hkind, rfl⟩
  · exact Nat.succ_le_succ hlevels

private theorem sign_reads {room : Nat} {s t : State} {op : UnaryOp} {operand : Expr} (hs : s.Terminated)
    (hkind : op.token = s.token.kind) (hoperand : ReadsExpr room s.inside operand t) :
    ReadsExpr (room + 1) s (.unary t.nextId op s.token.pos operand)
      { t with depth := t.depth - 1, nextId := t.nextId + 1 } := by
  obtain ⟨⟨ts, hreads, hfit⟩, hcomplete, hlevels⟩ := hoperand
  have heof : s.token.kind ≠ .eof := by
    rw [← hkind]
    cases op <;> decide
  refine ⟨⟨_, (hreads.level hs heof).freshId, .cons ?_ hfit⟩, hcomplete, ?_⟩
  · exact Mark.placed_fits_iff.mpr ⟨hkind.symm, rfl⟩
  · exact Nat.succ_le_succ hlevels

/-- An operator with its right operand makes the chain longer by one. -/
private theorem operator_reads {room : Nat} (floor : Nat) {lhs : Bool} {s t u v : State} {op : BinaryOp} {opPos : Pos}
    {left left' right : Expr} (hs : s.Terminated) (ht : t.findings = []) (hexpect : expect op.token s = .ok opPos t)
    (hresolve : resolveIf lhs left t = .ok left' u)
    (hright : u.Terminated → ReadsExpr room { u with depth := u.depth + 1 } right v) :
    (Part.chain lhs floor left).ReadsFrom (room + 1) s (.binary v.nextId op opPos left' right)
        { v with nextId := v.nextId + 1 } ∧
      (Expr.binary v.nextId op opPos left' right).spine = left.spine + 1 := by
  obtain ⟨hkind, rfl, rfl⟩ := expect_clean ht hexpect
  have hread := Reads.next hs (by rw [hkind]; cases op <;> decide)
  obtain ⟨hlook, hmarks, hcomplete, hlevels, hspine⟩ := resolveIf_reads hresolve
  have hbefore := hread.trans hlook
  obtain ⟨⟨ts, hreads, hfit⟩, hrightComplete, hrightLevels⟩ := hright (hbefore.terminated hs)
  have hafter := hbefore.trans (hreads.setDepth u.depth)
  refine ⟨⟨_, .placed op.token s.token.pos :: right.marks, hafter.freshId.withDepth _ hbefore.depth, ?_, ?_,
    fun hleft => ⟨hcomplete hleft, hrightComplete⟩, ?_⟩, ?_⟩
  · rw [Expr.marks, hmarks]
  · exact .cons (Mark.placed_fits_iff.mpr ⟨hkind, rfl⟩) hfit
  · rw [Expr.levels, hlevels, hspine]
    omega
  · rw [Expr.spine, hspine]

private theorem Runs.reads {room : Nat} {part : Part} {s s' : State} {e : Expr} (h : Runs room part s e s')
    (hs : s.Terminated) (hclean : s'.findings = []) : part.ReadsFrom room s e s' := by
  induction h with
  | @literal room lhs s kind hliteral =>
    have hkind := LiteralKind.token_of_ofToken? hliteral
    have hnext : Reads s [s.token] s.next := .next hs (by rw [← hkind]; cases kind <;> decide)
    refine ⟨⟨⟨_, hnext.freshId, .single ?_⟩, trivial, Nat.zero_le _⟩, rfl⟩
    exact Mark.worded_fits_iff.mpr ⟨hkind.symm, rfl, rfl⟩
  | name hkind hname hresolve => exact name_reads hs hclean hname hresolve
  | missing hop hlparen hliteral hident hskipped =>
    exact absurd hclean (not_clean_of_skippedExpr (fun _ _ => not_clean_of_expected) hskipped)
  | tooDeep hopens hskipped => exact absurd hclean (not_clean_of_tooDeep hskipped)
  | sign hop hoperand ih => exact ⟨sign_reads hs (UnaryOp.token_of_ofToken? hop) (ih hs.inside hclean).1, rfl⟩
  | @paren room lhs s t u inner rparen hlparen hinner hrparen ih =>
    have hu : u.findings = [] := hclean
    have ht : t.findings = [] := (Extends.of_ok (.expect .rparen) hrparen).clean hu
    exact ⟨paren_reads hs hlparen (ih hs.inside ht) hu hrparen, rfl⟩
  | stop hstop => exact ⟨[], [], .refl _, by simp, .nil, id, by omega⟩
  | @noRoom floor lhs s t u v op opPos left left' right hop hfloor hexpect hresolve hskipped =>
    have hv : v.findings = [] := hclean
    exact absurd hv (not_clean_of_tooDeep hskipped)
  | @operator room floor lhs s t u v s' op opPos left left' right e hop hfloor hexpect hresolve hright hrest
      ihright ihrest =>
    have hv : v.findings = [] := hrest.extends.clean hclean
    have hu : u.findings = [] := hright.extends.clean hv
    have ht : t.findings = [] := (Extends.of_ok (.resolveIf _ _) hresolve).clean hu
    obtain ⟨⟨ts, ms, hreads, hmarks, hfit, hcomplete, hlevels⟩, hspine⟩ :=
      operator_reads floor hs ht hexpect hresolve fun hterminated => ihright hterminated hv
    obtain ⟨us, ns, hrest, hrestMarks, hrestFit, hrestComplete, hrestLevels⟩ := ihrest (hreads.terminated hs) hclean
    refine ⟨ts ++ us, ms ++ ns, hreads.trans (hrest.setDepth s.depth), ?_, hfit.append hrestFit,
      hrestComplete ∘ hcomplete, by omega⟩
    rw [hrestMarks, hmarks, List.append_assoc]
  | @operand room floor lhs s t u first e hfirst hrest ihfirst ihrest =>
    have ht : t.findings = [] := hrest.extends.clean hclean
    obtain ⟨⟨⟨ts, hreads, hfit⟩, hcomplete, hlevels⟩, hspine⟩ := ihfirst hs ht
    obtain ⟨us, ms, hreads', hmarks, hfit', hcomplete', hlevels'⟩ := ihrest (hreads.terminated hs) hclean
    refine ⟨⟨ts ++ us, ?_, ?_⟩, hcomplete' hcomplete, by omega⟩
    · rw [← hreads.depth]
      exact hreads.trans hreads'
    · rw [hmarks]
      exact hfit.append hfit'

/-- An expression read without a fault is one by the grammar. -/
theorem expr_reads {lhs : Bool} {s s' : State} {e : Expr} (hs : s.Terminated) (hclean : s'.findings = [])
    (h : expr lhs s = .ok e s') :
    ∃ ts, Reads s ts s' ∧ IsExpr .expr ts e ∧ e.levels ≤ maxDepth := by
  obtain ⟨⟨ts, hreads, hfit⟩, hcomplete, hlevels⟩ := (expr_runs h).reads hs hclean
  exact ⟨ts, hreads, (Grammar.isExpr_of_fitAll (expr_grouped hs h) hcomplete hfit).1, by omega⟩

/-! ### Types -/

theorem TypeRuns.reads {room : Nat} {s s' : State} {type : Expr} (h : TypeRuns room s type s') (hs : s.Terminated)
    (hclean : s'.findings = []) : ∃ ts, Reads s ts s' ∧ IsType ts type ∧ type.levels ≤ room := by
  induction h with
  | @name room s t i hkind hname =>
    have ht : t.findings = [] := hclean
    obtain ⟨hread, hfits⟩ := ident_reads hs ht hname
    exact ⟨_, hread.freshId, .ident (Grammar.isName_of_fits hfits), Nat.zero_le _⟩
  | tooDeep hlparen hskipped => exact absurd hclean (not_clean_of_tooDeep hskipped)
  | @paren room s t u inner rparen hlparen hinner hrparen ih =>
    have hu : u.findings = [] := hclean
    have ht : t.findings = [] := (Extends.of_ok (.expect .rparen) hrparen).clean hu
    obtain ⟨hkind, rfl, rfl⟩ := expect_clean hu hrparen
    obtain ⟨ts, hreads, htype, hlevels⟩ := ih hs.inside ht
    have hinside := hreads.level hs (by rw [hlparen]; decide)
    have hclose := Reads.next (hinside.terminated hs) (by rw [hkind]; decide)
    exact ⟨_, (hinside.trans hclose).freshId, .paren hlparen htype hkind, Nat.succ_le_succ hlevels⟩
  | @missing room s t u inner rparen hlparen hstart hskipped hrparen =>
    have hu : u.findings = [] := hclean
    have ht : t.findings = [] := (Extends.of_ok (.expect .rparen) hrparen).clean hu
    exact absurd ht (not_clean_of_skippedExpr (fun _ _ => not_clean_of_expected) hskipped)

/-- A type that is looked up without a fault keeps its tokens, and its name has not been declared. -/
theorem resolveType_reads {type type' : Expr} {ts : List Token} {s s' : State} (htype : IsType ts type)
    (hclean : s'.findings = []) (h : resolveType type s = .ok type' s') :
    Reads s [] s' ∧ IsType ts type' ∧ type'.levels = type.levels ∧
      ∀ declared, s.names.Declares declared → ∀ name, type'.bare.ident?.map Ident.name = some name →
        name ∉ builtinTypes → name ∉ declared := by
  induction htype generalizing type' s s' with
  | @ident ts i id hname =>
    rw [resolveType] at h
    split at h
    · next hbuiltin =>
      cases h
      refine ⟨.refl s, .ident hname, rfl, fun declared hdeclares name hsome hnot => ?_⟩
      cases hsome
      exact absurd (List.contains_iff_mem.mp hbuiltin) hnot
    · rw [resolve_bind] at h
      obtain ⟨_, t, hreport, h⟩ := bind_eq_ok.mp h
      cases h
      obtain ⟨hnone, rfl⟩ := reportAny_clean hclean hreport
      obtain ⟨binding, hi⟩ := s.names.ident_resolve i true
      rw [hi]
      obtain ⟨hkind, hpos, hword⟩ := hname
      refine ⟨⟨rfl, fun hs => hs, s.names.scopes_resolve i true, rfl, rfl⟩, .ident ⟨hkind, hpos, hword⟩, rfl,
        fun declared hdeclares name hsome _ => ?_⟩
      cases hsome
      exact (hdeclares.resolve_eq_none_iff true (i := i)).mp (Option.map_eq_none_iff.mp hnone)
  | paren hl hinner hr ih =>
    obtain ⟨inner', t, hrun, h⟩ := bind_eq_ok.mp h
    cases h
    obtain ⟨hreads, hinner', hlevels, hname⟩ := ih hclean hrun
    exact ⟨hreads, .paren hl hinner' hr, congrArg (· + 1) hlevels, hname⟩

/-- A type read without a fault is one by the grammar, and its name has not been declared. -/
theorem type?_reads {s s' : State} {type : Option Expr} (hs : s.Terminated) (hclean : s'.findings = [])
    (h : type? s = .ok type s') :
    ∃ ts, Reads s ts s' ∧ IsTypeOption ts type ∧ (∀ e ∈ type, e.levels ≤ maxDepth) ∧
      ∀ declared, s.names.Declares declared → ∀ sp : Spec, sp.type = type → ¬ sp.TypeIn declared := by
  obtain ⟨bare, t, type, rfl, hbare, htype⟩ | ⟨rfl, rfl, -⟩ := type?_runs h
  · have ht : t.findings = [] := (Extends.of_ok (.resolveType bare) htype).clean hclean
    obtain ⟨ts, hreads, hbare, hlevels⟩ := hbare.reads hs ht
    obtain ⟨hlook, hlooked, hlevels', hnames⟩ := resolveType_reads hbare hclean htype
    refine ⟨ts, ?_, .some hlooked, ?_, fun declared hdeclares sp hsp htypeIn => ?_⟩
    · simpa using hreads.trans hlook
    · rintro e' ⟨⟩
      omega
    · obtain ⟨name, hname, hbuiltin, hmem⟩ := htypeIn
      rw [Spec.typeName?, hsp] at hname
      exact hnames declared (hdeclares.congr hreads.scopes) name hname hbuiltin hmem
  · refine ⟨[], .refl _, .none, by simp, ?_⟩
    rintro declared - sp hsp ⟨name, hname, -⟩
    rw [Spec.typeName?, hsp] at hname
    cases hname

end RoseLang.Parse
