import RoseLang.Proofs.Syntax.Grammar

/-!
# Trees write out as their tokens

A tree that stands for tokens by the grammar is written out as exactly these tokens, terminators left
out.
-/

namespace RoseLang

/-! ### No tree has a terminator -/

/-- Whether none of the marks is a terminator. -/
def Solid (ms : List Mark) : Prop := ∀ m ∈ ms, m.kind ≠ .semi

theorem solid_cons {m : Mark} {ms : List Mark} : Solid (m :: ms) ↔ m.kind ≠ .semi ∧ Solid ms :=
  List.forall_mem_cons

theorem solid_append {ms ns : List Mark} : Solid (ms ++ ns) ↔ Solid ms ∧ Solid ns :=
  List.forall_mem_append

theorem solid_nil : Solid [] := List.forall_mem_nil _

theorem solid_listed {items : List (List Mark)} (h : ∀ ms ∈ items, Solid ms) : Solid (listed items) := by
  induction items with
  | nil => exact solid_nil
  | cons ms items ih =>
    obtain ⟨hms, hitems⟩ := List.forall_mem_cons.mp h
    cases items with
    | nil => rwa [listed_single]
    | cons ns items =>
      rw [listed_cons_cons]
      exact solid_append.mpr ⟨hms, solid_cons.mpr ⟨by decide, ih hitems⟩⟩

theorem LiteralKind.token_ne_semi (k : LiteralKind) : k.token ≠ .semi := by cases k <;> decide

theorem UnaryOp.token_ne_semi (op : UnaryOp) : op.token ≠ .semi := by cases op <;> decide

theorem BinaryOp.token_ne_semi (op : BinaryOp) : op.token ≠ .semi := by cases op <;> decide

theorem AssignOp.token_ne_semi (op : AssignOp) : op.token ≠ .semi := by cases op <;> decide

theorem DeclKeyword.token_ne_semi (k : DeclKeyword) : k.token ≠ .semi := by cases k <;> decide

theorem Ident.solid_mark (i : Ident) : Solid [i.mark] :=
  solid_cons.mpr ⟨(by decide : Kind.ident ≠ .semi), solid_nil⟩

theorem solid_expr (e : Expr) : Solid e.marks := by
  induction e with
  | bad id start stop => exact solid_nil
  | ident id i => exact i.solid_mark
  | literal id l => exact solid_cons.mpr ⟨l.kind.token_ne_semi, solid_nil⟩
  | paren id lparen inner rparen ih =>
    refine solid_append.mpr ⟨solid_cons.mpr ⟨?_, ih⟩, solid_cons.mpr ⟨?_, solid_nil⟩⟩
    · exact (by decide : Kind.lparen ≠ .semi)
    · exact (by decide : Kind.rparen ≠ .semi)
  | unary id op opPos operand ih => exact solid_cons.mpr ⟨op.token_ne_semi, ih⟩
  | binary id op opPos left right ihleft ihright =>
    exact solid_append.mpr ⟨ihleft, solid_cons.mpr ⟨op.token_ne_semi, ihright⟩⟩

theorem solid_exprs (es : List Expr) : Solid (listed (es.map Expr.marks)) := by
  apply solid_listed
  intro ms hms
  obtain ⟨e, -, rfl⟩ := List.mem_map.mp hms
  exact solid_expr e

theorem solid_spec (s : Spec) : Solid s.marks := by
  refine solid_append.mpr ⟨solid_append.mpr ⟨solid_listed fun ms hms => ?_, fun m hm => ?_⟩, ?_⟩
  · obtain ⟨i, -, rfl⟩ := List.mem_map.mp hms
    exact i.solid_mark
  · obtain ⟨e, -, hm⟩ := List.mem_flatMap.mp hm
    exact solid_expr e m hm
  · rw [valueMarks]
    split
    · exact solid_nil
    · exact solid_cons.mpr ⟨by decide, solid_exprs s.values⟩

/-! ### Tokens without terminators -/

/-- The tokens that are no terminators. -/
def withoutSemis (ts : List Token) : List Token := ts.filter fun t => t.kind ≠ .semi

theorem withoutSemis_append (ts us : List Token) :
    withoutSemis (ts ++ us) = withoutSemis ts ++ withoutSemis us := List.filter_append ..

theorem withoutSemis_semi {t : Token} (h : t.kind = .semi) : withoutSemis [t] = [] := by
  simp [withoutSemis, h]

theorem withoutSemis_of_solid {ms : List Mark} {ts : List Token} (hsolid : Solid ms)
    (hfit : Mark.FitAll ms ts) : withoutSemis ts = ts := by
  induction ms generalizing ts with
  | nil => rw [Mark.FitAll.nil_iff.mp hfit]; rfl
  | cons m ms ih =>
    obtain ⟨t, us, rfl, ht, hus⟩ := Mark.FitAll.cons_iff.mp hfit
    obtain ⟨hm, hms⟩ := solid_cons.mp hsolid
    have hkind : t.kind ≠ .semi := ht.1 ▸ hm
    rw [withoutSemis, List.filter_cons_of_pos (by simpa using hkind)]
    exact congrArg _ (ih hms hus)

namespace Grammar

variable {ts : List Token}

theorem IsType.fitAll {e : Expr} (h : IsType ts e) : Mark.FitAll e.marks ts := by
  induction h with
  | ident hname => exact hname.fitAll
  | paren hl hinner hr ih =>
    refine .append (.cons (Mark.placed_fits_iff.mpr ⟨hl, rfl⟩) ih) (.single ?_)
    exact Mark.placed_fits_iff.mpr ⟨hr, rfl⟩

theorem IsValues.fitAll {es : List Expr} (h : IsValues ts es) : Mark.FitAll (valueMarks es) ts := by
  cases h with
  | none => exact .nil
  | some hassign hvalues =>
    obtain ⟨e, rest, rfl⟩ := List.exists_cons_of_ne_nil hvalues.ne_nil
    exact .cons (Mark.plain_fits_iff.mpr hassign) (hvalues.listed fun _ _ h => h.fitAll)

theorem IsSpec.fitAll {s : Spec} (h : IsSpec ts s) : Mark.FitAll s.marks ts := by
  obtain ⟨hnames, htype, hvalues⟩ := h
  refine .append (.append ?_ ?_) hvalues.fitAll
  · exact hnames.listed fun _ _ h => h.fitAll
  · cases htype with
    | none => exact .nil
    | some htype => simpa using htype.fitAll

theorem IsSpec.withoutSemis_eq {s : Spec} (h : IsSpec ts s) : withoutSemis ts = ts :=
  withoutSemis_of_solid (solid_spec s) h.fitAll

theorem Separated.fitAll_specs {specs : List Spec} (h : Separated .semi IsSpec ts specs) :
    Mark.FitAll (specs.flatMap Spec.marks) (withoutSemis ts) := by
  induction h with
  | one hspec => simpa [hspec.withoutSemis_eq] using hspec.fitAll
  | more hspec hsemi hrest ih =>
    rw [List.append_cons, withoutSemis_append, withoutSemis_append, withoutSemis_semi hsemi,
      hspec.withoutSemis_eq, List.append_nil, List.flatMap_cons]
    exact hspec.fitAll.append ih

theorem IsGroup.fitAll {specs : List Spec} (h : IsGroup ts specs) :
    Mark.FitAll (specs.flatMap Spec.marks) (withoutSemis ts) := by
  cases h with
  | empty => exact .nil
  | specs hspecs => exact hspecs.fitAll_specs
  | closed hspecs ht =>
    rw [withoutSemis_append, withoutSemis_semi ht, List.append_nil]
    exact hspecs.fitAll_specs

/-- A group is told from a single spec by the position of its parenthesis, which must be a valid one. -/
theorem IsDecl.fitAll {d : Decl} (h : IsDecl ts d) (hvalid : ∀ t ∈ ts, t.pos.isValid = true) :
    Mark.FitAll d.marks (withoutSemis ts) := by
  cases h with
  | @spec k keyword ts spec id hk hspec =>
    have hkind := DeclKeyword.token_of_ofToken? hk
    have hfit : Mark.FitAll (.placed keyword.token k.pos :: spec.marks) (k :: ts) :=
      .cons (Mark.placed_fits_iff.mpr ⟨hkind.symm, rfl⟩) hspec.fitAll
    rw [withoutSemis_of_solid (solid_cons.mpr ⟨keyword.token_ne_semi, solid_spec spec⟩) hfit]
    simpa [Decl.marks, Pos.isValid, Pos.none] using hfit
  | @group k keyword l ts specs r id hk hl hgroup hr =>
    have hkind := DeclKeyword.token_of_ofToken? hk
    have hlparen : l.pos.isValid = true := hvalid l (by simp)
    have hsemi : ∀ {t : Token}, t.kind ≠ .semi → withoutSemis [t] = [t] := by
      intro t ht
      simp [withoutSemis, ht]
    have hsplit : k :: l :: ts ++ [r] = [k] ++ [l] ++ ts ++ [r] := rfl
    rw [hsplit, withoutSemis_append, withoutSemis_append, withoutSemis_append,
      hsemi (hkind ▸ keyword.token_ne_semi), hsemi (by rw [hl]; decide), hsemi (by rw [hr]; decide)]
    simp only [Decl.marks, hlparen, ↓reduceIte]
    refine .cons (Mark.placed_fits_iff.mpr ⟨hkind.symm, rfl⟩) (.append (.cons ?_ hgroup.fitAll) (.single ?_))
    · exact Mark.placed_fits_iff.mpr ⟨hl, rfl⟩
    · exact Mark.placed_fits_iff.mpr ⟨hr, rfl⟩

theorem IsSimple.fitAll {st : Stmt} (h : IsSimple ts st) : Mark.FitAll st.marks ts ∧ Solid st.marks := by
  cases h with
  | @assign ls left t op rs right id hleft hop hright =>
    have hkind := AssignOp.token_of_ofToken? hop
    constructor
    · refine .append (hleft.listed fun _ _ h => h.fitAll) (.cons ?_ (hright.listed fun _ _ h => h.fitAll))
      exact Mark.placed_fits_iff.mpr ⟨hkind.symm, rfl⟩
    · exact solid_append.mpr ⟨solid_exprs left, solid_cons.mpr ⟨op.token_ne_semi, solid_exprs right⟩⟩
  | expr hexpr => exact ⟨hexpr.fitAll, solid_expr _⟩
  | inc hexpr ht =>
    refine ⟨hexpr.fitAll.append (.single (Mark.placed_fits_iff.mpr ⟨ht, rfl⟩)), ?_⟩
    exact solid_append.mpr ⟨solid_expr _, solid_cons.mpr ⟨(by decide : Kind.inc ≠ .semi), solid_nil⟩⟩
  | dec hexpr ht =>
    refine ⟨hexpr.fitAll.append (.single (Mark.placed_fits_iff.mpr ⟨ht, rfl⟩)), ?_⟩
    exact solid_append.mpr ⟨solid_expr _, solid_cons.mpr ⟨(by decide : Kind.dec ≠ .semi), solid_nil⟩⟩

theorem IsStmt.fitAll {st : Stmt} (h : IsStmt ts st) (hvalid : ∀ t ∈ ts, t.pos.isValid = true) :
    Mark.FitAll st.marks (withoutSemis ts) := by
  cases h with
  | empty ht =>
    rw [withoutSemis_semi ht]
    exact .nil
  | simple hsimple ht =>
    obtain ⟨hfit, hsolid⟩ := hsimple.fitAll
    rw [withoutSemis_append, withoutSemis_semi ht, List.append_nil, withoutSemis_of_solid hsolid hfit]
    exact hfit
  | decl hdecl ht =>
    rw [withoutSemis_append, withoutSemis_semi ht, List.append_nil]
    exact hdecl.fitAll fun t ht => hvalid t (List.mem_append_left _ ht)

theorem IsFile.fitAll {stmts : List Stmt} (h : IsFile ts stmts) (hvalid : ∀ t ∈ ts, t.pos.isValid = true) :
    Mark.FitAll (stmts.flatMap Stmt.marks) (withoutSemis ts) := by
  induction h with
  | nil => exact .nil
  | cons hstmt hrest ih =>
    rw [List.flatMap_cons, withoutSemis_append]
    refine .append (hstmt.fitAll fun t ht => hvalid t ?_) (ih fun t ht => hvalid t ?_)
    · exact List.mem_append_left _ ht
    · exact List.mem_append_right _ ht

end Grammar

end RoseLang
