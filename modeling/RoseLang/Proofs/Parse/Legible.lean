import RoseLang.Proofs.Parse.Sound.File
import RoseLang.Proofs.Syntax.Node
import RoseLang.Proofs.Syntax.Unambiguous
import RoseLang.Proofs.Token.Cuts

/-!
# S-expressions of parsed expressions

What a clean parse takes for a name or a literal was read as one, without a fault, and would be so on its own. So
the expressions of clean parses, and all parts of them, are legible, and what they are is told by their
S-expressions, whichever texts they come from.
-/

namespace RoseLang

/-! ### Names and literals of a text -/

/-- If the token is a name or a literal, its text is read as this on its own. -/
def Token.Legible (t : Token) : Prop := t.kind.isLiteral = true → LexesAs t.text t.kind

theorem Lexer.ReadsToken.legible {l l' : Lexer} {cs after : List Char} {t : Token} (h : ReadsToken l cs after t l')
    (hclean : l.tokenize.2 = []) : t.Legible := by
  intro hkind
  obtain ⟨-, c, more, rfl, hpiece⟩ := h.faultless hclean
  have hkeeps : t.kind.keepsText = true := by rw [Kind.keepsText, hkind, Bool.true_or, Bool.true_or, Bool.true_or]
  have htext : t.text.toList = c :: more := by rw [h.text, if_pos hkeeps, String.toList_ofList]
  exact lexesAs_of_isToken hkind ⟨c, more, htext, Piece.first_of_append hpiece⟩

theorem Lexer.legible_of_mem_tokenize {l : Lexer} (hclean : l.tokenize.2 = []) : ∀ t ∈ l.tokenize.1, t.Legible := by
  have hlast : ∀ kind span text, kind = .semi ∨ kind = .eof → (Token.mk kind span text).Legible := by
    rintro kind span text (rfl | rfl) hkind <;> cases hkind
  induction l using tokenize_induction with
  | nil l hrest =>
    rw [tokenize_of_nil hrest]
    intro t ht
    rcases List.mem_append.mp ht with ht | ht
    · split at ht
      · rw [List.mem_singleton.mp ht]
        exact hlast _ _ _ (.inl rfl)
      · cases ht
    · rw [List.mem_singleton.mp ht]
      exact hlast _ _ _ (.inr rfl)
  | gap l cs after fault l' h ih =>
    have hrest := (h.faultless hclean).2
    rw [h.tokenize]
    intro t ht
    rcases List.mem_append.mp ht with ht | ht
    · split at ht
      · rw [List.mem_singleton.mp ht]
        exact hlast _ _ _ (.inl rfl)
      · cases ht
    · exact ih hrest t ht
  | token l cs after t l' h ih =>
    rw [h.tokenize]
    exact List.forall_mem_cons.mpr ⟨h.legible hclean, ih (h.faultless hclean).1⟩

/-! ### Expressions of the grammar -/

theorem Expr.link_legible {e operand : Expr} {id : NodeId} {op : BinaryOp} {opPos : Pos} (he : e.Legible)
    (hoperand : operand.Legible) : (e.link id op opPos operand).Legible := by
  induction e with
  | binary outerId outer outerPos left right ihleft ihright =>
    rw [link]
    split
    · exact ⟨he.1, ihright he.2⟩
    · exact ⟨he, hoperand⟩
  | _ => exact ⟨he, hoperand⟩

namespace Grammar

variable {ts : List Token}

theorem IsName.legible {i : Ident} {id : NodeId} (h : IsName ts i) (hts : ∀ t ∈ ts, t.Legible) :
    (Expr.ident id i).Legible := by
  obtain ⟨hkind, -, hname⟩ := h
  have ht := List.forall_mem_singleton.mp hts
  rw [Token.Legible, hkind, ← hname] at ht
  exact ht rfl

theorem IsType.legible {e : Expr} (h : IsType ts e) (hts : ∀ t ∈ ts, t.Legible) : e.Legible := by
  induction h with
  | ident hname => exact hname.legible hts
  | paren _ _ _ ih => exact ih fun t ht => hts t (List.mem_append_left _ (List.mem_cons_of_mem _ ht))

theorem IsExpr.legible {phrase : Phrase} {e : Expr} (h : IsExpr phrase ts e) (hts : ∀ t ∈ ts, t.Legible) :
    e.Legible := by
  induction h with
  | ident hname => exact hname.legible hts
  | @literal t kind _ hkind =>
    have ht := List.forall_mem_singleton.mp hts
    have hliteral : t.kind.isLiteral = true := by
      rw [← LiteralKind.token_of_ofToken? hkind]
      cases kind <;> rfl
    show LexesAs t.text kind.token
    rw [LiteralKind.token_of_ofToken? hkind]
    exact ht hliteral
  | unary _ _ ih => exact ih fun t ht => hts t (List.mem_cons_of_mem _ ht)
  | paren _ _ _ ih => exact ih fun t ht => hts t (List.mem_append_left _ (List.mem_cons_of_mem _ ht))
  | first _ ih => exact ih hts
  | link _ _ _ ihleft ihoperand =>
    exact Expr.link_legible (ihleft fun t ht => hts t (List.mem_append_left _ ht))
      (ihoperand fun t ht => hts t (List.mem_append_right _ (List.mem_cons_of_mem _ ht)))

/-- What items are that consist of certain tokens. -/
theorem Separated.forall_mem_of_tokens {α : Type} {sep : Kind} {Item : List Token → α → Prop} {as : List α}
    {Q : Token → Prop} {P : α → Prop} (h : Separated sep Item ts as)
    (hP : ∀ us a, Item us a → (∀ t ∈ us, Q t) → P a) (hts : ∀ t ∈ ts, Q t) : ∀ a ∈ as, P a := by
  induction h with
  | one hitem => exact List.forall_mem_singleton.mpr (hP _ _ hitem hts)
  | more hitem _ _ ih =>
    refine List.forall_mem_cons.mpr ⟨hP _ _ hitem fun t ht => hts t (List.mem_append_left _ ht), ih fun t ht => ?_⟩
    exact hts t (List.mem_append_right _ (List.mem_cons_of_mem _ ht))

theorem Separated.legible {es : List Expr} (h : Separated .comma (IsExpr .expr) ts es) (hts : ∀ t ∈ ts, t.Legible) :
    ∀ e ∈ es, e.Legible :=
  h.forall_mem_of_tokens (fun _ _ hexpr => hexpr.legible) hts

theorem IsSpec.legible {s : Spec} (h : IsSpec ts s) (hts : ∀ t ∈ ts, t.Legible) : ∀ e ∈ s.exprs, e.Legible := by
  obtain ⟨_, htype, hvalues⟩ := h
  rw [List.forall_mem_append, List.forall_mem_append] at hts
  refine List.forall_mem_append.mpr ⟨?_, ?_⟩
  · cases htype with
    | none => exact List.forall_mem_nil _
    | some htype => exact List.forall_mem_singleton.mpr (htype.legible hts.1.2)
  · cases hvalues with
    | none => exact List.forall_mem_nil _
    | some _ hvalues => exact hvalues.legible fun t ht => hts.2 t (List.mem_cons_of_mem _ ht)

theorem IsGroup.legible {specs : List Spec} (h : IsGroup ts specs) (hts : ∀ t ∈ ts, t.Legible) :
    ∀ s ∈ specs, ∀ e ∈ s.exprs, e.Legible := by
  cases h with
  | empty => exact List.forall_mem_nil _
  | specs hspecs => exact hspecs.forall_mem_of_tokens (fun _ _ hspec => hspec.legible) hts
  | closed hspecs _ =>
    exact hspecs.forall_mem_of_tokens (fun _ _ hspec => hspec.legible) fun t ht => hts t (List.mem_append_left _ ht)

theorem IsDecl.legible {d : Decl} (h : IsDecl ts d) (hts : ∀ t ∈ ts, t.Legible) : ∀ e ∈ d.exprs, e.Legible := by
  have hspecs : ∀ specs : List Spec, (∀ s ∈ specs, ∀ e ∈ s.exprs, e.Legible) →
      ∀ e ∈ specs.flatMap Spec.exprs, e.Legible := by
    intro specs h e he
    obtain ⟨s, hs, he⟩ := List.mem_flatMap.mp he
    exact h s hs e he
  cases h with
  | spec _ hspec =>
    apply hspecs
    exact List.forall_mem_singleton.mpr (hspec.legible fun t ht => hts t (List.mem_cons_of_mem _ ht))
  | group _ _ hgroup _ =>
    apply hspecs
    refine hgroup.legible fun t ht => hts t ?_
    exact List.mem_append_left _ (List.mem_cons_of_mem _ (List.mem_cons_of_mem _ ht))

theorem IsSimple.legible {st : Stmt} (h : IsSimple ts st) (hts : ∀ t ∈ ts, t.Legible) :
    ∀ e ∈ st.exprs, e.Legible := by
  cases h with
  | assign hleft _ hright =>
    refine List.forall_mem_append.mpr ⟨hleft.legible fun t ht => hts t (List.mem_append_left _ ht), ?_⟩
    exact hright.legible fun t ht => hts t (List.mem_append_right _ (List.mem_cons_of_mem _ ht))
  | expr hexpr => exact List.forall_mem_singleton.mpr (hexpr.legible hts)
  | inc hexpr _ =>
    exact List.forall_mem_singleton.mpr (hexpr.legible fun t ht => hts t (List.mem_append_left _ ht))
  | dec hexpr _ =>
    exact List.forall_mem_singleton.mpr (hexpr.legible fun t ht => hts t (List.mem_append_left _ ht))

theorem IsFile.legible {stmts : List Stmt} (h : IsFile ts stmts) (hts : ∀ t ∈ ts, t.Legible) :
    ∀ st ∈ stmts, ∀ e ∈ st.exprs, e.Legible := by
  induction h with
  | nil => exact List.forall_mem_nil _
  | cons hstmt _ ih =>
    obtain ⟨hfirst, hrest⟩ := List.forall_mem_append.mp hts
    refine List.forall_mem_cons.mpr ⟨?_, ih hrest⟩
    cases hstmt with
    | empty => exact List.forall_mem_nil _
    | simple hsimple _ => exact hsimple.legible fun t ht => hfirst t (List.mem_append_left _ ht)
    | decl hdecl _ => exact hdecl.legible fun t ht => hfirst t (List.mem_append_left _ ht)

end Grammar

/-! ### Expressions of a parse -/

/-- The outermost expressions of the node. -/
def Node.exprs : Node → List Expr
  | stmt s => s.exprs
  | decl d => d.exprs
  | spec s => s.exprs
  | ident _ => []
  | expr e => [e]

theorem Node.legible_children {n : Node} (h : ∀ e ∈ n.exprs, e.Legible) :
    ∀ m ∈ n.children, ∀ e ∈ m.exprs, e.Legible := by
  have hall : ∀ es : List Expr, (∀ e ∈ es, e.Legible) → ∀ m ∈ es.map expr, ∀ e ∈ m.exprs, e.Legible := by
    intro es hes m hm
    obtain ⟨e, he, rfl⟩ := List.mem_map.mp hm
    exact List.forall_mem_singleton.mpr (hes e he)
  cases n with
  | stmt s =>
    cases s with
    | bad | empty => exact List.forall_mem_nil _
    | decl id d => exact List.forall_mem_singleton.mpr h
    | expr id e => exact List.forall_mem_singleton.mpr h
    | incDec id e opPos increment => exact List.forall_mem_singleton.mpr h
    | assign id left op opPos right =>
      obtain ⟨hleft, hright⟩ := List.forall_mem_append.mp h
      exact List.forall_mem_append.mpr ⟨hall left hleft, hall right hright⟩
  | decl d =>
    cases d with
    | bad => exact List.forall_mem_nil _
    | specs id keyword keywordPos lparen entries rparen =>
      intro m hm
      obtain ⟨s, hs, rfl⟩ := List.mem_map.mp hm
      exact fun e he => h e (List.mem_flatMap.mpr ⟨s, hs, he⟩)
  | spec s =>
    obtain ⟨htype, hvalues⟩ := List.forall_mem_append.mp h
    refine List.forall_mem_append.mpr ⟨?_, List.forall_mem_append.mpr ⟨hall _ htype, hall _ hvalues⟩⟩
    intro m hm
    obtain ⟨i, -, rfl⟩ := List.mem_map.mp hm
    exact List.forall_mem_nil _
  | ident i => exact List.forall_mem_nil _
  | expr e =>
    have he := List.forall_mem_singleton.mp h
    cases e with
    | bad => cases he
    | literal => exact List.forall_mem_nil _
    | ident => exact List.forall_mem_singleton.mpr (List.forall_mem_nil _)
    | paren | unary => exact List.forall_mem_singleton.mpr (List.forall_mem_singleton.mpr he)
    | binary => exact hall [_, _] (List.forall_mem_cons.mpr ⟨he.1, List.forall_mem_singleton.mpr he.2⟩)

/-- All expressions of a clean parse are legible, outermost ones and parts of others. -/
theorem SourceFile.legible_of_occurs {file : SourceFile} {source : String} {allErrors : Bool}
    (hok : (file.parse source allErrors).isOk = true) {e : Expr}
    (he : Occurs (.expr e) ((file.parse source allErrors).file.stmts.map .stmt)) : e.Legible := by
  obtain ⟨hclean, hfile, -⟩ := parse_sound hok
  have hfaultless : (Lexer.ofText source ⟨file.base⟩).tokenize.2 = [] := List.flatMap_eq_nil_iff.mpr hclean
  have htokens : ∀ t ∈ ((Lexer.ofText source ⟨file.base⟩).lexemes.map Lexeme.token).dropLast, t.Legible :=
    fun t ht => Lexer.legible_of_mem_tokenize hfaultless t (List.dropLast_subset _ ht)
  have hnode : ∀ e' ∈ (Node.expr e).exprs, e'.Legible := by
    refine he.of_children (P := fun n => ∀ e' ∈ n.exprs, e'.Legible) (fun m hm => m.legible_children hm) ?_
    intro m hm
    obtain ⟨st, hst, rfl⟩ := List.mem_map.mp hm
    exact hfile.legible htokens st hst
  exact List.forall_mem_singleton.mp hnode

/-- Two expressions of clean parses with the same S-expression are the same but for numbers, positions and bindings,
be they operands or types, outermost or not, and of whichever texts. -/
theorem SourceFile.parse_sexp {file file' : SourceFile} {source source' : String} {allErrors allErrors' : Bool}
    (hok : (file.parse source allErrors).isOk = true) (hok' : (file'.parse source' allErrors').isOk = true)
    {e e' : Expr} (he : Occurs (.expr e) ((file.parse source allErrors).file.stmts.map .stmt))
    (he' : Occurs (.expr e') ((file'.parse source' allErrors').file.stmts.map .stmt)) (hsexp : e.sexp = e'.sexp) :
    e.erase = e'.erase :=
  Expr.erase_eq_of_sexp_eq (legible_of_occurs hok he) (legible_of_occurs hok' he') hsexp

/-- An operator that could be a unary one, before a raw string of parentheses and quotes, laid out in two ways. -/
theorem SourceFile.parse_sexp_rawString :
    let source := "v = (a) - \x60) \"(\x60"
    let source' := "u = 0\nv = ( a )-\x60) \"(\x60 // )"
    let made := SourceFile.parse ⟨"", 1, 16, .ofText source⟩ source false
    let made' := SourceFile.parse ⟨"", 7, 27, .ofText source'⟩ source' true
    made.isOk = true ∧ made'.isOk = true ∧ ∃ e e', Occurs (.expr e) (made.file.stmts.map .stmt) ∧
      Occurs (.expr e') (made'.file.stmts.map .stmt) ∧ e ≠ e' ∧ e.sexp = "(- (paren a) \x60) \"(\x60)" ∧
        e.sexp = e'.sexp ∧ e.erase = e'.erase := by
  intro source source' made made'
  let v : Expr := .ident 1 ⟨0, ⟨1⟩, "v", .unresolved⟩
  let e : Expr := .binary 6 .sub ⟨9⟩ (.paren 4 ⟨5⟩ (.ident 3 ⟨2, ⟨6⟩, "a", .unresolved⟩) ⟨7⟩)
    (.literal 5 ⟨⟨11⟩, .rawString, "\x60) \"(\x60"⟩)
  let v' : Expr := .ident 5 ⟨4, ⟨13⟩, "v", .unresolved⟩
  let e' : Expr := .binary 10 .sub ⟨22⟩ (.paren 8 ⟨17⟩ (.ident 7 ⟨6, ⟨19⟩, "a", .unresolved⟩) ⟨21⟩)
    (.literal 9 ⟨⟨23⟩, .rawString, "\x60) \"(\x60"⟩)
  have hok : made.isOk = true := by decide +kernel
  have hok' : made'.isOk = true := by decide +kernel
  have hassign : Stmt.assign 7 [v] .assign ⟨3⟩ [e] ∈ made.file.stmts := by decide +kernel
  have hassign' : Stmt.assign 11 [v'] .assign ⟨15⟩ [e'] ∈ made'.file.stmts := by decide +kernel
  have he : Occurs (.expr e) (made.file.stmts.map .stmt) :=
    .inside (List.mem_map_of_mem hassign) (.here (by simp [Node.children]))
  have he' : Occurs (.expr e') (made'.file.stmts.map .stmt) :=
    .inside (List.mem_map_of_mem hassign') (.here (by simp [Node.children]))
  have hsexp : e.sexp = e'.sexp := by decide
  exact ⟨hok, hok', e, e', he, he', by decide, by decide, hsexp, SourceFile.parse_sexp hok hok' he he' hsexp⟩

end RoseLang
