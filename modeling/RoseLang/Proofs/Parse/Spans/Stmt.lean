import RoseLang.Proofs.Parse.Sound.File
import RoseLang.Proofs.Parse.Spans.Expr

/-!
# The spans of statements and files

Statements lie one after the other, with all that they are made of inside them, however malformed the text. The
main statement says so of a file, whatever its base: all its nodes lie between the base and the place behind the
end of the text, and names and literals stand where the text reads so.
-/

namespace RoseLang

namespace Parse

variable {base : Pos} {source : List Char} {s s' : State}

/-! ### Specs -/

theorem nameList_laid {names : List Ident} (hs : s.Placed base source) (h : nameList s = .ok names s') :
    names ≠ [] ∧ LaidIn base source s.token.pos.index (names.map .ident) s'.brink := by
  obtain ⟨first, others, rfl, hlist⟩ := nameList_eq_ok.mp h
  exact ⟨List.cons_ne_nil _ _, commaList_laid .ident ident_laid hs hlist⟩

theorem initialValues_laid {values : List Expr} (hs : s.Placed base source)
    (h : initialValues s = .ok values s') : LaidIn base source s.brink (values.map .expr) s'.brink := by
  obtain ⟨hassign, hrhs⟩ | ⟨-, rfl, rfl⟩ := initialValues_eq_ok.mp h
  · have hle := hs.brink_le_next (by rw [hassign]; decide)
    exact (rhsList_laid ((Extends.next s).placed hs) hrhs).2.mono_left hle
  · exact .nil (Nat.le_refl _)

theorem declare_unbound {kind : ObjectKind} {decl : NodeId} {index : Nat} {name name' : Ident}
    (h : declare kind decl index name s = .ok name' s') :
    name'.unbound = name.unbound ∧ s'.tokens = s.tokens := by
  rw [declare_apply, bind_eq_ok] at h
  obtain ⟨_, t, hreport, h⟩ := h
  obtain ⟨rfl, rfl⟩ := pure_eq_ok.mp h
  exact ⟨s.names.declare_unbound name kind decl index, (reportAny_tokens hreport :)⟩

/-- A spec reaches from its first name to the last part that it has. -/
theorem specNode_laid {sp : Spec} {lo hi : Nat} (hnames : sp.names ≠ [])
    (h : LaidIn base source lo (Node.spec sp).children hi) : LaidIn base source lo [.spec sp] hi := by
  obtain ⟨first, others, hfirst⟩ := List.exists_cons_of_ne_nil hnames
  have hhead : (Node.spec sp).children.head? = some (.ident first) := by rw [Node.children, hfirst]; rfl
  have hstart : sp.pos = first.pos := by rw [Spec.pos, hfirst]; rfl
  obtain ⟨last, hlast, hstop⟩ : ∃ last, (Node.spec sp).children.getLast? = some last ∧ sp.stop = last.span.stop := by
    rw [Node.children, List.getLast?_append, List.getLast?_append, List.getLast?_map, List.getLast?_map,
      List.getLast?_map, Spec.stop]
    cases sp.values.getLast? with
    | some value => exact ⟨_, rfl, rfl⟩
    | none =>
      cases sp.type with
      | some type => exact ⟨_, rfl, rfl⟩
      | none =>
        rw [hfirst, List.getLast?_cons]
        exact ⟨_, rfl, rfl⟩
  refine Laid.enclose (.spec sp) h hhead hlast ?_ rfl
  show Span.mk sp.pos sp.stop = _
  rw [hstart, hstop]
  rfl

theorem SpecRuns.laid {keyword : DeclKeyword} {index : Nat} {sp : Spec} (h : SpecRuns keyword index s sp s')
    (hs : s.Placed base source) : LaidIn base source s.token.pos.index [.spec sp] s'.brink := by
  obtain @⟨t, u, v, w, x, _, names, names', type, values, hnames, htype, hvalues, hclose, hshape, hdeclare⟩ := h
  have ht := (Extends.of_ok .nameList hnames).placed hs
  have hu := (Extends.of_ok .type? htype).placed ht
  have hv := (Extends.of_ok .initialValues hvalues).placed hu
  have hafter : Extends v s' := by
    have hx := (Extends.of_ok .expectSemi hclose).trans (.of_ok (.reportAny _) hshape)
    exact (hx.trans (.of_ok .freshId rfl)).trans (.of_ok (.mapM (.declare _ _ _) _) hdeclare)
  obtain ⟨hunbound, -⟩ := mapM_view (fun _ _ _ _ => declare_unbound) hdeclare
  obtain ⟨hne, hlaid⟩ := nameList_laid hs hnames
  have hparts := (type?_laid ht htype).append (initialValues_laid hu hvalues)
  refine specNode_laid (fun hnil => hne ?_)
    (((hlaid.idents_congr hunbound).append hparts).mono_right (hv.brink_le hafter))
  have hnil : names' = [] := hnil
  rw [hnil, List.map_nil] at hunbound
  exact List.map_eq_nil_iff.mp hunbound.symm

theorem SpecsRuns.laid {keyword : DeclKeyword} {index n : Nat} {entries : List Spec}
    (h : SpecsRuns keyword index n s entries s') (hs : s.Placed base source) :
    LaidIn base source s.brink (entries.map .spec) s'.brink := by
  induction h with
  | full | stop => exact .nil (Nat.le_refl _)
  | more hgo hfirst hrest ih =>
    rw [State.brink_of_kind (not_or.mp hgo).2]
    exact ((SpecRuns.of_ok hfirst).laid hs).append (ih ((Extends.of_ok (.spec keyword _) hfirst).placed hs))

/-! ### Statements -/

/-- A group reaches from its keyword to its right parenthesis. -/
theorem groupNode_laid {id : NodeId} {keyword : DeclKeyword} {keywordPos lparen rparen : Pos} {entries : List Spec}
    {lo hi : Nat} (hlparen : keywordPos.index < lparen.index) (hlo : keywordPos.index ≤ lo)
    (hhi : hi ≤ (rparen.advance 1).index) (h : LaidIn base source lo (entries.map .spec) hi) :
    LaidIn base source keywordPos.index [.decl (.specs id keyword keywordPos lparen entries rparen)]
      (rparen.advance 1).index := by
  let d := Decl.specs id keyword keywordPos lparen entries rparen
  have hvalid : lparen.isValid = true := decide_eq_true (Nat.ne_of_gt (Nat.zero_lt_of_lt hlparen))
  have hstop : d.stop = rparen.advance 1 := if_pos hvalid
  rw [← hstop] at hhi ⊢
  exact Laid.wrap (.decl d) rfl (h.mono hlo hhi)

/-- A single spec ends its declaration. -/
theorem singleNode_laid {id : NodeId} {keyword : DeclKeyword} {keywordPos : Pos} {entry : Spec} {lo hi : Nat}
    (hlo : keywordPos.index ≤ lo) (h : LaidIn base source lo [.spec entry] hi) :
    LaidIn base source keywordPos.index [.decl (.specs id keyword keywordPos .none [entry] .none)] hi := by
  obtain ⟨hstart, hlaid, hstop⟩ := h.tighten rfl rfl
  have hnode := Laid.wrap (.decl (.specs id keyword keywordPos .none [entry] .none)) rfl
    (hlaid.mono_left (Nat.le_trans hlo hstart))
  exact hnode.mono_right hstop

theorem DeclRuns.laid {keyword : DeclKeyword} {d : Decl} (h : DeclRuns keyword s d s') (hs : s.Placed base source)
    (hkeyword : DeclKeyword.ofToken? s.token.kind = some keyword) :
    LaidIn base source s.token.pos.index [.decl d] s'.brink := by
  have hkind : s.token.kind ≠ .eof ∧ s.token.kind ≠ .semi := by
    constructor
    all_goals
      intro hsame
      rw [hsame] at hkeyword
      cases hkeyword
  -- The keyword takes up some room.
  have hwide : ∀ {t : State} {keywordPos : Pos}, expect keyword.token s = .ok keywordPos t →
      keywordPos = s.token.pos ∧ s.token.pos.index < t.token.pos.index ∧ t.Placed base source := by
    intro t keywordPos hexpect
    obtain ⟨rfl, htokens⟩ := expect_eq_ok hexpect
    have htoken : t.token = s.next.token := (List.cons.inj htokens).1
    have hlt := (hs.fills s.token List.mem_cons_self hkind.1).lt hkind.2
    rw [htoken]
    exact ⟨rfl, Nat.lt_of_lt_of_le hlt (hs.stop_le_next hkind.1), (Extends.of_ok (.expect _) hexpect).placed hs⟩
  cases h with
  | @group t u v w x keywordPos lparen rparen entries hexpect hparen hlparen hentries hrparen hclose =>
    obtain ⟨rfl, hlt, ht⟩ := hwide hexpect
    have hu := (Extends.of_ok (.expect .lparen) hlparen).placed ht
    have hv := (Extends.of_ok (.specs keyword 0 _) hentries).placed hu
    have hw := (Extends.of_ok (.expect .rparen) hrparen).placed hv
    have hlo : s.token.pos.index ≤ u.brink :=
      Nat.le_trans (Nat.le_trans (Nat.le_of_lt hlt) ht.pos_le_brink)
        (ht.brink_le (Extends.of_ok (.expect .lparen) hlparen))
    have hend : w.brink ≤ x.brink := hw.brink_le (Extends.of_ok .expectSemi hclose)
    obtain ⟨rfl, hstop⟩ := expect_advance_le hv hrparen
    obtain ⟨rfl, -⟩ := expect_eq_ok hlparen
    have hspecs := (SpecsRuns.of_ok hentries).laid hu
    exact (groupNode_laid hlt hlo hv.brink_le_advance hspecs).mono_right (Nat.le_trans hstop hend)
  | single hexpect hparen hentry =>
    obtain ⟨rfl, hlt, ht⟩ := hwide hexpect
    exact singleNode_laid (Nat.le_of_lt hlt) ((SpecRuns.of_ok hentry).laid ht)

/-- A statement is no longer than the list of its parts if it starts with its first one. -/
theorem firstExpr_laid {lo hi : Nat} {first : Expr} {others : List Expr}
    (h : LaidIn base source lo ((first :: others).map .expr) hi) : LaidIn base source lo [.expr first] hi := by
  obtain ⟨hlo, htext, hchildren, hrest⟩ := Laid.cons_iff.mp h
  exact .cons hlo htext hchildren (.nil hrest.le)

/-- An assignment reaches from its first expression to its last one. -/
theorem assignNode_laid {id : NodeId} {first : Expr} {others right : List Expr} {op : AssignOp} {opPos : Pos}
    {lo hi : Nat} (hright : right ≠ [])
    (h : LaidIn base source lo ((first :: others).map .expr ++ right.map .expr) hi) :
    LaidIn base source lo [.stmt (.assign id (first :: others) op opPos right)] hi := by
  obtain ⟨last, hlast⟩ : ∃ last, right.getLast? = some last := ⟨_, List.getLast?_eq_some_getLast hright⟩
  have hend : (Node.stmt (.assign id (first :: others) op opPos right)).children.getLast? = some (.expr last) := by
    rw [Node.children, List.getLast?_append, List.getLast?_map, hlast]
    rfl
  refine Laid.enclose (.stmt (.assign id (first :: others) op opPos right)) h rfl hend ?_ rfl
  show Span.mk first.pos (Stmt.stop _) = _
  rw [Stmt.stop, hlast]
  rfl

/-- An increment or decrement reaches over its sign. -/
theorem incDecNode_laid {id : NodeId} {first : Expr} {opPos : Pos} {increment : Bool} {lo : Nat}
    (hlast : opPos.index ≤ Pos.last.index) (h : LaidIn base source lo [.expr first] opPos.index) :
    LaidIn base source lo [.stmt (.incDec id first opPos increment)] (opPos.advance 2).index := by
  obtain ⟨hlo, hlaid, hhi⟩ := h.tighten rfl rfl
  have hnode := Laid.wrap (.stmt (.incDec id first opPos increment)) rfl
    (hlaid.mono_right (Nat.le_trans hhi (Pos.le_index_advance hlast 2)))
  exact hnode.mono_left hlo

theorem SimpleRuns.laid {made : NodeId → Stmt} (h : SimpleRuns s made s') (hs : s.Placed base source) (id : NodeId) :
    LaidIn base source s.token.pos.index [.stmt (made id)] s'.brink := by
  cases h with
  | @assign t s' first others right op hlist hassign hright =>
    have ht := (Extends.of_ok .lhsList hlist).placed hs
    have hne : t.token.kind ≠ .eof := by
      intro heof
      rw [heof] at hassign
      cases hassign
    obtain ⟨hright_ne, hlaid⟩ := rhsList_laid ((Extends.next t).placed ht) hright
    exact assignNode_laid hright_ne ((lhsList_laid hs hlist).append (hlaid.mono_left (ht.brink_le_next hne)))
  | @incDec t u first others increment hlist hkind hone =>
    have ht := (Extends.of_ok .lhsList hlist).placed hs
    have htokens := State.tokens_next_congr (reportAny_tokens hone)
    have hne : t.token.kind ≠ .eof ∧ t.token.kind ≠ .semi := by
      rw [hkind]
      cases increment <;> decide
    have hwidth : t.token.written.utf8ByteSize = 2 := by
      rw [Token.written, hkind]
      cases increment <;> rfl
    have hstop := (ht.fills t.token List.mem_cons_self hne.1).stop hne.2
    rw [hwidth] at hstop
    have hfirst := firstExpr_laid (lhsList_laid hs hlist)
    rw [State.brink_of_kind hne.1] at hfirst
    refine (incDecNode_laid (ht.le_last List.mem_cons_self) hfirst).mono_right ?_
    rw [State.brink_congr htokens, hstop]
    exact Nat.le_trans (ht.stop_le_next hne.1) ((Extends.next t).placed ht).pos_le_brink
  | @other t u first others hlist hassign hincDec hone =>
    rw [State.brink_congr (reportAny_tokens hone)]
    exact Laid.enclose (.stmt (.expr id first)) (firstExpr_laid (lhsList_laid hs hlist)) rfl rfl rfl rfl

/-- An empty statement reaches over its semicolon, unless that is not written. -/
theorem emptyNode_laid (hs : s.Placed base source) (id : NodeId) :
    LaidIn base source s.token.pos.index [.stmt (.empty id s.token.pos s.token.isImplicitSemi)] s.next.brink := by
  let st := Stmt.empty id s.token.pos s.token.isImplicitSemi
  have hwide := Pos.le_index_advance (hs.le_last List.mem_cons_self) 1
  have hle : s.token.pos.index ≤ st.stop.index ∧ st.stop.index ≤ (s.token.pos.advance 1).index := by
    dsimp only [st, Stmt.stop]
    split
    · exact ⟨Nat.le_refl _, hwide⟩
    · exact ⟨hwide, Nat.le_refl _⟩
  exact (Laid.wrap (.stmt st) rfl (.nil hle.1)).mono_right (Nat.le_trans hle.2 hs.advance_le_next)

theorem stmt_laid {st : Stmt} (hs : s.Placed base source) (h : stmt s = .ok st s') :
    LaidIn base source s.token.pos.index [.stmt st] s'.brink := by
  cases StmtRuns.of_ok h with
  | @keyword t keyword d hkeyword hdecl =>
    have hlaid := (DeclRuns.of_ok hdecl).laid hs hkeyword
    exact Laid.enclose (.stmt (.decl t.nextId d)) hlaid rfl rfl rfl rfl
  | semi hsemi => exact emptyNode_laid hs _
  | operand hoperand hsimple hclose =>
    have ht := (Extends.of_ok .simple hsimple).placed hs
    have hend := ht.brink_le (Extends.of_ok .expectSemi hclose)
    exact ((SimpleRuns.of_ok hsimple).laid hs _).mono_right hend
  | @other t span hkeyword hoperand hsemi hskipped =>
    have hext := Extends.of_ok (.skipped statementStarts (.expected .statement)) hskipped
    obtain ⟨u, -, rfl, rfl⟩ := skipped_eq_ok hskipped
    let st := Stmt.bad (u.skipTo statementStarts).nextId s.token.pos (u.skipTo statementStarts).token.pos
    exact (Laid.wrap (.stmt st) rfl (.nil (hs.pos_le hext).1)).mono_right (hext.placed hs).pos_le_brink

/-- What has been made lies in order in front of the brink, and the tokens to come where the text has them. -/
structure State.LaidOut (base : Pos) (source : List Char) (lo : Nat) (s : State) : Prop where
  laid : LaidIn base source lo (s.stmts.map .stmt) s.brink
  placed : s.Placed base source

theorem State.LaidOut.made {lo : Nat} {s t : State} {st : Stmt} (h : s.LaidOut base source lo)
    (hkind : s.token.kind ≠ .eof) (hst : Parse.stmt s = .ok st t) :
    State.LaidOut base source lo { t with stmts := t.stmts ++ [st] } := by
  have hextends := Extends.of_ok .stmt hst
  have hmade := stmt_laid h.placed hst
  rw [← State.brink_of_kind hkind] at hmade
  refine ⟨?_, hextends.placed h.placed⟩
  show LaidIn base source lo ((t.stmts ++ [st]).map .stmt) t.brink
  rw [hextends.stmts, List.map_append]
  exact h.laid.append hmade

theorem State.LaidOut.stopped {lo : Nat} {s t : State} {e : Stop} (h : s.LaidOut base source lo)
    (hst : Parse.stmt s = .error e t) : t.LaidOut base source lo := by
  have hextends := Extends.of_error .stmt hst
  exact ⟨hextends.stmts ▸ h.laid.mono_right (h.placed.brink_le hextends), hextends.placed h.placed⟩

end Parse

open Parse

theorem SourceFile.laid_parse {name source : String} {base : Nat} {file : SourceFile}
    (hfile : SourceFile.ofText name base source = .ok file) (allErrors : Bool) :
    LaidIn ⟨base⟩ source.toList base ((file.parse source allErrors).file.stmts.map .stmt)
      (min (base + source.utf8ByteSize + 1) Pos.last.index) := by
  let l := Lexer.ofText source ⟨file.base⟩
  let start := (State.start file allErrors l.lexemes).next
  have hbase := SourceFile.base_ofText hfile
  have hfits := SourceFile.fits_of_ofText hfile
  have hplaced : start.Placed ⟨base⟩ source.toList := by
    have hplaced : Placed ⟨file.base⟩ source.toList l.tokenize.1 := Lexer.placed_tokenize hfits
    rwa [State.Placed, tokens_next_start, ← hbase]
  have hstart : LaidIn ⟨base⟩ source.toList base (start.stmts.map .stmt) start.brink := by
    have hstmts : start.stmts = [] := (Extends.next _).stmts
    rw [hstmts]
    exact .nil (Nat.le_trans (hplaced.within _ List.mem_cons_self).1 hplaced.pos_le_brink)
  have hend : (lastState file source allErrors).LaidOut ⟨base⟩ source.toList base :=
    lastState_induction ⟨hstart, hplaced⟩ ⟨hstart, hplaced⟩ (fun _ _ _ hs => hs.made) fun _ _ _ hs => hs.stopped
  rw [Text.utf8ByteSize_eq]
  exact hend.laid.mono_right hend.placed.brink_le_end

/-- However malformed the text, the spans of a file nest and are in order: every node lies between the base and
the place behind the end of the text and has its children inside it, statements and the children of a node come
one after the other, and names and literals stand where the text reads so. -/
theorem SourceFile.parse_spans {name source : String} {base : Nat} {file : SourceFile}
    (hfile : SourceFile.ofText name base source = .ok file) (allErrors : Bool) :
    let stmts := (file.parse source allErrors).file.stmts.map Node.stmt
    InOrder stmts ∧ ∀ n, Occurs n stmts →
      base ≤ n.span.start.index ∧ n.span.start.index ≤ n.span.stop.index ∧
        n.span.stop.index ≤ min (base + source.utf8ByteSize + 1) Pos.last.index ∧
        (∀ c ∈ n.children, n.span.start.index ≤ c.span.start.index ∧ c.span.stop.index ≤ n.span.stop.index) ∧
        InOrder n.children ∧ ∀ text, n.text? = some text → n.span.Reads ⟨base⟩ source.toList text := by
  intro stmts
  have hlaid := SourceFile.laid_parse hfile allErrors
  refine ⟨hlaid.inOrder, fun n hn => ?_⟩
  obtain ⟨hlo, hhi, htext, hchildren⟩ := hlaid.occurs hn
  refine ⟨hlo, hchildren.le, hhi, fun c hc => ?_, hchildren.inOrder, htext⟩
  obtain ⟨hstart, hstop, -⟩ := hchildren.forall_mem c hc
  exact ⟨hstart, hstop⟩

/-- The right parenthesis is missing, and stands behind the end of a text whose base is no valid position. -/
theorem SourceFile.parse_spans_open :
    ∃ file, SourceFile.ofText "" 0 "var (é = x" = .ok file ∧
      let name : Ident := ⟨0, ⟨5⟩, "é", .resolved 0⟩
      let entry : Spec := ⟨3, [name], none, [.ident 2 ⟨1, ⟨10⟩, "x", .unresolved⟩]⟩
      let group : Decl := .specs 4 .varWord ⟨0⟩ ⟨4⟩ [entry] ⟨11⟩
      (file.parse "var (é = x" false).file.stmts = [.decl 5 group] ∧
        group.span = ⟨⟨0⟩, ⟨12⟩⟩ ∧ group.span.stop.index ≤ min (0 + "var (é = x".utf8ByteSize + 1) Pos.last.index ∧
        InOrder (Node.spec entry).children ∧ name.span = ⟨⟨5⟩, ⟨7⟩⟩ ∧
        name.span.Reads ⟨0⟩ "var (é = x".toList "é" := by
  let source := "var (é = x"
  let file : SourceFile := ⟨"", 0, source.utf8ByteSize, LineMap.ofText source⟩
  let name : Ident := ⟨0, ⟨5⟩, "é", .resolved 0⟩
  let entry : Spec := ⟨3, [name], none, [.ident 2 ⟨1, ⟨10⟩, "x", .unresolved⟩]⟩
  let group : Decl := .specs 4 .varWord ⟨0⟩ ⟨4⟩ [entry] ⟨11⟩
  have hfile : SourceFile.ofText "" 0 source = .ok file := rfl
  have hstmts : (file.parse source false).file.stmts = [.decl 5 group] := by decide +kernel
  obtain ⟨-, hnodes⟩ := SourceFile.parse_spans hfile false
  rw [hstmts] at hnodes
  have hgroup : Occurs (.decl group) [.stmt (.decl 5 group)] :=
    .inside List.mem_cons_self (.here List.mem_cons_self)
  have hentry : Occurs (.spec entry) [.stmt (.decl 5 group)] :=
    .inside List.mem_cons_self (.inside List.mem_cons_self (.here List.mem_cons_self))
  have hname : Occurs (.ident name) [.stmt (.decl 5 group)] :=
    .inside List.mem_cons_self (.inside List.mem_cons_self (.inside List.mem_cons_self (.here List.mem_cons_self)))
  obtain ⟨-, -, hstop, -⟩ := hnodes _ hgroup
  obtain ⟨-, -, -, -, horder, -⟩ := hnodes _ hentry
  obtain ⟨-, -, -, -, -, htext⟩ := hnodes _ hname
  exact ⟨file, hfile, hstmts, by decide, hstop, horder, by decide +kernel, htext "é" rfl⟩

end RoseLang
