import RoseLang.Proofs.Syntax.Node
import RoseLang.Proofs.Token.Placement

/-!
# The spans of expressions

An expression lies between the token at which it starts and the one at which the parse goes on, and so do its
parts. Of the token at which the parse stands only its edge counts: something missing may have been put at the
end of the text, and then ends behind it.
-/

namespace RoseLang.Parse

/-- Where that ends at the latest which has been made so far. -/
def State.brink (s : State) : Nat := s.token.edge

variable {base : Pos} {source : List Char} {s s' : State}

/-! ### From token to token -/

/-- The tokens from the current one on are left of the source text. -/
def State.Placed (base : Pos) (source : List Char) (s : State) : Prop := RoseLang.Placed base source s.tokens

theorem Extends.placed (h : Extends s s') (hs : s.Placed base source) : s'.Placed base source :=
  hs.of_suffix h.tokens s'.tokens_ne_nil

namespace State

theorem brink_congr (h : s'.tokens = s.tokens) : s'.brink = s.brink :=
  congrArg Token.edge (List.cons.inj h).1

theorem Placed.terminated (hs : s.Placed base source) : s.Terminated := hs.ended

theorem brink_of_kind (h : s.token.kind ≠ .eof) : s.brink = s.token.pos.index := Token.edge_of_ne_eof h

theorem Placed.pos_le_brink (hs : s.Placed base source) : s.token.pos.index ≤ s.brink :=
  hs.le_edge List.mem_cons_self

theorem Placed.pos_le (hs : s.Placed base source) (h : Extends s s') :
    s.token.pos.index ≤ s'.token.pos.index ∧ s.brink ≤ s'.brink := by
  have hmem : s'.token ∈ s.tokens := h.tokens.subset List.mem_cons_self
  rcases List.mem_cons.mp hmem with hsame | hlater
  · rw [brink, brink, hsame]
    exact ⟨Nat.le_refl _, Nat.le_refl _⟩
  · obtain ⟨hne, hstop, -⟩ := hs.first_lt hlater
    have hle := Nat.le_trans (hs.fills s.token List.mem_cons_self hne).le hstop
    rw [brink_of_kind hne]
    exact ⟨hle, Nat.le_trans hle (h.placed hs).pos_le_brink⟩

theorem Placed.brink_le (hs : s.Placed base source) (h : Extends s s') : s.brink ≤ s'.brink := (hs.pos_le h).2

theorem Placed.stop_le_next (hs : s.Placed base source) (hkind : s.token.kind ≠ .eof) :
    s.token.span.stop.index ≤ s.next.token.pos.index := by
  have htokens := hs.terminated.tokens_next hkind
  have hmem : s.next.token ∈ s.rest.map Lexeme.token := by
    rw [(List.cons.inj htokens).2]
    exact List.mem_cons_self
  exact (hs.first_lt hmem).2.1

theorem Placed.brink_le_advance (hs : s.Placed base source) : s.brink ≤ (s.token.pos.advance 1).index := by
  rw [brink, Token.edge]
  split
  · exact Nat.le_refl _
  · exact Pos.le_index_advance (hs.le_last List.mem_cons_self) 1

theorem Placed.brink_le_end (hs : s.Placed base source) :
    s.brink ≤ min (base.index + Text.utf8Length source + 1) Pos.last.index := by
  have hle := (hs.within s.token List.mem_cons_self).2
  have hfits := hs.fits
  have hlast : Pos.last.index = 4294967295 := rfl
  rw [brink, Token.edge]
  split
  · rw [Pos.index_advance]
    omega
  · omega

/-- Past a token that is there the brink moves on to the next one at least. -/
theorem Placed.brink_le_next (hs : s.Placed base source) (hkind : s.token.kind ≠ .eof) :
    s.brink ≤ s.next.token.pos.index := by
  rw [brink_of_kind hkind]
  exact Nat.le_trans (hs.fills s.token List.mem_cons_self hkind).le (hs.stop_le_next hkind)

/-- Whatever the token is, one place after it starts the next brink has not been passed. -/
theorem Placed.advance_le_next (hs : s.Placed base source) : (s.token.pos.advance 1).index ≤ s.next.brink := by
  by_cases heof : s.token.kind = .eof
  · have htokens := hs.terminated.tokens_eof heof
    have hrest : s.rest = [] := List.map_eq_nil_iff.mp (List.cons.inj htokens).2
    rw [next_of_nil hrest, brink, Token.edge, if_pos heof]
  · have htokens := hs.terminated.tokens_next heof
    have hmem : s.next.token ∈ s.rest.map Lexeme.token := by
      rw [(List.cons.inj htokens).2]
      exact List.mem_cons_self
    exact (hs.first_lt hmem).2.2

theorem Placed.inside (hs : s.Placed base source) :
    s.inside.Placed base source ∧ s.token.pos.index ≤ s.inside.token.pos.index := by
  have hs' : Placed base source { s with depth := s.depth + 1 } := hs
  exact ⟨(Extends.next _).placed hs', (hs'.pos_le (.next _)).1⟩

theorem tokens_next_congr (h : s'.tokens = s.tokens) : s'.next.tokens = s.next.tokens := by
  have hrest : s'.rest.map Lexeme.token = s.rest.map Lexeme.token := (List.cons.inj h).2
  cases hs : s.rest with
  | nil =>
    rw [hs, List.map_nil, List.map_eq_nil_iff] at hrest
    rw [next_of_nil hs, next_of_nil hrest, h]
  | cons l ls =>
    obtain ⟨l', ls', hs', -, -⟩ := List.map_eq_cons_iff.mp (hs ▸ hrest)
    rw [tokens_next_of_cons hs, tokens_next_of_cons hs', List.cons.injEq] at h
    exact h.2

theorem binaryOp?_of_eof (h : s.token.kind = .eof) : s.binaryOp? = none := by
  simp [binaryOp?, h, BinaryOp.ofToken?]

end State

theorem expected_tokens {what : Expectation} (h : expected what s = .ok () s') : s'.tokens = s.tokens := by
  have hreport : reportAny (some (s.token.pos, .expected what s.token.kind s.token.text)) s = .ok () s' := h
  exact reportAny_tokens hreport

/-- A token that is expected is passed, whether it is the right one or not. -/
theorem expect_eq_ok {kind : Kind} {pos : Pos} (h : expect kind s = .ok pos s') :
    pos = s.token.pos ∧ s'.tokens = s.next.tokens := by
  rw [expect, currentPos_bind] at h
  obtain ⟨_, t, hrequire, h⟩ := bind_eq_ok.mp h
  rw [next_bind, pure_eq_ok] at h
  obtain ⟨rfl, rfl⟩ := h
  refine ⟨rfl, State.tokens_next_congr ?_⟩
  rw [require, currentKind_bind] at hrequire
  split at hrequire
  · rw [(pure_eq_ok.mp hrequire).2]
  · exact expected_tokens hrequire

theorem expect_advance_le {kind : Kind} {pos : Pos} (hs : s.Placed base source)
    (h : expect kind s = .ok pos s') : pos = s.token.pos ∧ (pos.advance 1).index ≤ s'.brink := by
  obtain ⟨rfl, htokens⟩ := expect_eq_ok h
  exact ⟨rfl, State.brink_congr htokens ▸ hs.advance_le_next⟩

/-! ### Names and leaves -/

/-- The nodes are laid out in the source text. -/
abbrev LaidIn (base : Pos) (source : List Char) : Nat → List Node → Nat → Prop := Laid (Span.Reads base source)

/-- A node that is made of the current word or literal and of nothing else. -/
theorem State.Placed.word_laid (hs : s.Placed base source) (hword : s.token.kind.isWordOrLiteral = true) {n : Node}
    (hspan : n.span = ⟨s.token.pos, s.token.pos.advance s.token.text.utf8ByteSize⟩) (hnone : n.children = [])
    (htext : ∀ text, n.text? = some text → text = s.token.text) :
    LaidIn base source s.token.pos.index [n] s.next.brink := by
  have hne : s.token.kind ≠ .eof := by
    intro heof
    rw [heof] at hword
    cases hword
  have hmem : s.token ∈ s.tokens := List.mem_cons_self
  rw [← hs.span_text hmem hword] at hspan
  have hlaid : LaidIn base source n.span.start.index [n] n.span.stop.index := by
    refine .leaf n (fun text h => ?_) hnone ?_
    · rw [hspan, htext text h]
      exact hs.reads _ hmem hword
    · rw [hspan]
      exact (hs.fills _ hmem hne).le
  rw [hspan] at hlaid
  exact hlaid.mono_right (Nat.le_trans (hs.stop_le_next hne) ((Extends.next s).placed hs).pos_le_brink)

theorem ident_laid {i : Ident} (hs : s.Placed base source) (h : ident s = .ok i s') :
    LaidIn base source s.token.pos.index [.ident i] s'.brink := by
  rw [ident, currentToken_bind] at h
  split at h
  · next hkind =>
    rw [next_bind, freshId_bind, pure_eq_ok] at h
    obtain ⟨rfl, rfl⟩ := h
    refine hs.word_laid (by rw [hkind]; rfl) rfl rfl fun text htext => ?_
    rw [Node.text?] at htext
    split at htext
    · cases htext
    · exact (Option.some.inj htext).symm
  · obtain ⟨pos, t, hexpect, h⟩ := bind_eq_ok.mp h
    rw [freshId_bind, pure_eq_ok] at h
    obtain ⟨rfl, rfl⟩ := h
    obtain ⟨rfl, hle⟩ := expect_advance_le hs hexpect
    have hpos := Pos.le_index_advance (hs.le_last List.mem_cons_self) 1
    exact (Laid.wrap (.ident ⟨_, s.token.pos, Ident.blank, _⟩) rfl (.nil hpos)).mono_right hle

theorem skippedExpr_laid {kinds : List Kind} {complaint : Parser Unit} {e : Expr} (hcomplaint : Built complaint)
    (hs : s.Placed base source) (h : skippedExpr kinds complaint s = .ok e s') :
    LaidIn base source s.token.pos.index [.expr e] s'.brink := by
  have hext := Extends.of_ok (.skippedExpr kinds hcomplaint) h
  have hle := (hs.pos_le hext).1
  have hbrink := (hext.placed hs).pos_le_brink
  obtain ⟨t, -, rfl, rfl⟩ := skippedExpr_eq_ok h
  let bad := Expr.bad (t.skipTo kinds).nextId s.token.pos (t.skipTo kinds).token.pos
  exact (Laid.wrap (.expr bad) rfl (.nil hle)).mono_right hbrink

theorem tooDeep_laid {e : Expr} (hs : s.Placed base source) (h : tooDeep s = .ok e s') :
    LaidIn base source s.token.pos.index [.expr e] s'.brink :=
  skippedExpr_laid (.bind .currentPos fun _ => .report _ _) hs h

theorem resolveIf_laid {now : Bool} {e e' : Expr} {lo : Nat} (h : resolveIf now e s = .ok e' s')
    (he : LaidIn base source lo [.expr e] s.brink) : LaidIn base source lo [.expr e'] s'.brink := by
  obtain ⟨hunbound, htokens⟩ := resolveIf_unbound h
  rw [State.brink_congr htokens]
  exact he.expr_congr hunbound

theorem identExpr_laid {lo hi : Nat} {i : Ident} (h : LaidIn base source lo [.ident i] hi) (id : NodeId) :
    LaidIn base source lo [.expr (.ident id i)] hi :=
  Laid.enclose (.expr (.ident id i)) h rfl rfl rfl rfl

/-! ### Expressions -/

theorem unaryExpr_laid {lo hi : Nat} {operand : Expr} {opPos : Pos} (h : LaidIn base source lo [.expr operand] hi)
    (hle : opPos.index ≤ lo) (id : NodeId) (op : UnaryOp) :
    LaidIn base source opPos.index [.expr (.unary id op opPos operand)] hi := by
  obtain ⟨hlo, hlaid, hhi⟩ := h.tighten rfl rfl
  exact (Laid.wrap (.expr (.unary id op opPos operand)) rfl
    (hlaid.mono_left (Nat.le_trans hle hlo))).mono_right hhi

theorem parenExpr_laid {lo hi : Nat} {inner : Expr} {lparen rparen : Pos}
    (h : LaidIn base source lo [.expr inner] hi) (hlo : lparen.index ≤ lo) (hhi : hi ≤ (rparen.advance 1).index)
    (id : NodeId) :
    LaidIn base source lparen.index [.expr (.paren id lparen inner rparen)] (rparen.advance 1).index :=
  Laid.wrap (.expr (.paren id lparen inner rparen)) rfl (h.mono hlo hhi)

theorem binaryExpr_laid {lo mid hi : Nat} {left right : Expr} (hleft : LaidIn base source lo [.expr left] mid)
    (hright : LaidIn base source mid [.expr right] hi) (id : NodeId) (op : BinaryOp) (opPos : Pos) :
    LaidIn base source lo [.expr (.binary id op opPos left right)] hi :=
  Laid.enclose (.expr (.binary id op opPos left right)) (hleft.append hright) rfl rfl rfl rfl

/-- The left operand when its operator has been passed. -/
theorem operator_laid {op : BinaryOp} {lhs : Bool} {left left' : Expr} {lo : Nat} {opPos : Pos} {t u : State}
    (hs : s.Placed base source) (hop : s.binaryOp? = some op) (hleft : LaidIn base source lo [.expr left] s.brink)
    (hopPos : expect op.token s = .ok opPos t) (hresolve : resolveIf lhs left t = .ok left' u) :
    u.Placed base source ∧ LaidIn base source lo [.expr left'] u.token.pos.index := by
  have hne : s.token.kind ≠ .eof := by
    intro heof
    rw [State.binaryOp?_of_eof heof] at hop
    cases hop
  obtain ⟨-, ht⟩ := expect_eq_ok hopPos
  obtain ⟨hunbound, hu⟩ := resolveIf_unbound hresolve
  have htokens : u.tokens = s.next.tokens := hu.trans ht
  have htoken : u.token = s.next.token := (List.cons.inj htokens).1
  refine ⟨?_, ?_⟩
  · rw [State.Placed, htokens]
    exact (Extends.next s).placed hs
  · rw [htoken]
    exact (hleft.expr_congr hunbound).mono_right (hs.brink_le_next hne)

/-- Parentheses, when what is inside them has been read. -/
theorem closing_laid {t u : State} {inner : Expr} {lparen rparen : Pos} {lo : Nat} {inRhs : Bool}
    (hlo : lparen.index ≤ lo) (hinner : LaidIn base source lo [.expr inner] t.brink) (ht : t.Placed base source)
    (hrparen : expect .rparen { t with inRhs, depth := t.depth - 1 } = .ok rparen u) :
    LaidIn base source lparen.index [.expr (.paren u.nextId lparen inner rparen)] u.brink := by
  obtain ⟨rfl, hle⟩ := expect_advance_le (s := { t with inRhs, depth := t.depth - 1 }) ht hrparen
  exact (parenExpr_laid hinner hlo ht.brink_le_advance _).mono_right hle

/-- Where what is made of each part lies. A chain starts behind a left operand. -/
private abbrev Part.Lies (base : Pos) (source : List Char) (s : State) (e : Expr) (s' : State) : Part → Prop
  | unary _ | operand _ _ => LaidIn base source s.token.pos.index [.expr e] s'.brink
  | chain _ _ left => ∀ lo, LaidIn base source lo [.expr left] s.brink → LaidIn base source lo [.expr e] s'.brink

private theorem Runs.lies {room : Nat} {part : Part} {e : Expr} (h : Runs room part s e s')
    (hs : s.Placed base source) : part.Lies base source s e s' := by
  induction h with
  | @literal room lhs s kind hkind =>
    have hword : s.token.kind.isWordOrLiteral = true := by
      generalize s.token.kind = found at hkind
      cases found <;> first | rfl | cases hkind
    exact hs.word_laid hword rfl rfl fun text htext => (Option.some.inj htext).symm
  | @name room lhs s t s' i e hkind hname hresolve =>
    exact resolveIf_laid (s := { t with nextId := t.nextId + 1 }) hresolve (identExpr_laid (ident_laid hs hname) _)
  | missing hop hlparen hliteral hident hskipped => exact skippedExpr_laid (.expected _) hs hskipped
  | tooDeep hopens hskipped => exact tooDeep_laid hs hskipped
  | sign hop hoperand ih =>
    obtain ⟨hinside, hpos⟩ := hs.inside
    exact unaryExpr_laid (ih hinside) hpos _ _
  | @paren room lhs s t u inner rparen hlparen hinner hrparen ih =>
    obtain ⟨hinside, hpos⟩ := hs.inside
    have hrhs : State.Placed base source { s.inside with inRhs := true } := hinside
    exact closing_laid hpos (ih hrhs) (hinner.extends.placed hrhs) hrparen
  | stop hstop => exact fun lo hleft => hleft
  | noRoom hop hfloor hexpect hresolve hskipped =>
    intro lo hleft
    obtain ⟨hu, hlaid⟩ := operator_laid hs hop hleft hexpect hresolve
    exact binaryExpr_laid hlaid (tooDeep_laid hu hskipped) _ _ _
  | @operator room floor lhs s t u v s' op opPos left left' right e hop hfloor hexpect hresolve hright hrest
      ihright ihrest =>
    intro lo hleft
    obtain ⟨hu, hlaid⟩ := operator_laid hs hop hleft hexpect hresolve
    have hdeeper : State.Placed base source { u with depth := u.depth + 1 } := hu
    exact ihrest (hright.extends.placed hdeeper) lo (binaryExpr_laid hlaid (ihright hdeeper) _ _ _)
  | @operand room floor lhs s t u first e hfirst hrest ihfirst ihrest =>
    exact ihrest (hfirst.extends.placed hs) s.token.pos.index (ihfirst hs)

theorem expr_laid {lhs : Bool} {e : Expr} (hs : s.Placed base source) (h : expr lhs s = .ok e s') :
    LaidIn base source s.token.pos.index [.expr e] s'.brink := (expr_runs h).lies hs

/-! ### Lists and types -/

section
variable {α : Type} {item : Parser α} {node : α → Node} (hbuilt : Built item)
  (hitem : ∀ {s s' : State} {a : α}, s.Placed base source → item s = .ok a s' →
    LaidIn base source s.token.pos.index [node a] s'.brink)
include hbuilt hitem

/-- What comes after a comma starts behind what came before it. -/
theorem CommaRuns.laid {n : Nat} {as : List α} (h : CommaRuns item n s as s') (hs : s.Placed base source) :
    LaidIn base source s.brink (as.map node) s'.brink := by
  induction h with
  | full | stop => exact .nil (Nat.le_refl _)
  | @more n s t s' a as hcomma hfirst hrest ih =>
    have hnext := (Extends.next s).placed hs
    have ht := (Extends.of_ok hbuilt hfirst).placed hnext
    have hle := hs.brink_le_next (by rw [hcomma]; decide)
    exact ((hitem hnext hfirst).mono_left hle).append (ih ht)

theorem commaList_laid {list : α × List α} (hs : s.Placed base source) (h : commaList item s = .ok list s') :
    LaidIn base source s.token.pos.index ((list.1 :: list.2).map node) s'.brink := by
  obtain ⟨t, hfirst, hothers⟩ := commaList_eq_ok.mp h
  have ht := (Extends.of_ok hbuilt hfirst).placed hs
  exact (hitem hs hfirst).append (hothers.laid hbuilt hitem ht)

end

theorem rhsList_laid {es : List Expr} (hs : s.Placed base source) (h : rhsList s = .ok es s') :
    es ≠ [] ∧ LaidIn base source s.token.pos.index (es.map .expr) s'.brink := by
  obtain ⟨first, others, t, rfl, hlist, rfl⟩ := rhsList_eq_ok.mp h
  have hlaid := commaList_laid (s := { s with inRhs := true }) (.expr false) expr_laid hs hlist
  exact ⟨List.cons_ne_nil _ _, hlaid⟩

/-- A list in which each item has been changed in something that `view` does not show. -/
theorem mapM_view {α β : Type} {view : α → β} {f : α → Parser α}
    (hf : ∀ a b s s', f a s = .ok b s' → view b = view a ∧ s'.tokens = s.tokens) {as bs : List α}
    (h : as.mapM f s = .ok bs s') : bs.map view = as.map view ∧ s'.tokens = s.tokens := by
  induction as generalizing bs s with
  | nil =>
    rw [List.mapM_nil] at h
    obtain ⟨rfl, rfl⟩ := pure_eq_ok.mp h
    exact ⟨rfl, rfl⟩
  | cons a as ih =>
    rw [List.mapM_cons, bind_eq_ok] at h
    obtain ⟨b, t, hb, h⟩ := h
    obtain ⟨cs, u, hcs, h⟩ := bind_eq_ok.mp h
    obtain ⟨rfl, rfl⟩ := pure_eq_ok.mp h
    obtain ⟨hview, ht⟩ := hf a b s t hb
    obtain ⟨hviews, hu⟩ := ih hcs
    exact ⟨by rw [List.map_cons, List.map_cons, hview, hviews], hu.trans ht⟩

theorem lhsList_laid {list : Expr × List Expr} (hs : s.Placed base source) (h : lhsList s = .ok list s') :
    LaidIn base source s.token.pos.index ((list.1 :: list.2).map .expr) s'.brink := by
  cases LhsRuns.of_ok h with
  | waiting hlist hcolon =>
    have hlaid := commaList_laid (s := { s with inRhs := false }) (.expr true) expr_laid hs hlist
    exact hlaid
  | @lookedUp t u s' first first' others others' hlist hkind hfirst hothers =>
    have hlaid := commaList_laid (s := { s with inRhs := false }) (.expr true) expr_laid hs hlist
    obtain ⟨hunbound, hu⟩ := resolveExpr_unbound hfirst
    obtain ⟨hunbounds, hs'⟩ := mapM_view (fun _ _ _ _ => resolveExpr_unbound) hothers
    have hmap : (first' :: others').map Expr.unbound = (first :: others).map Expr.unbound := by
      rw [List.map_cons, List.map_cons, hunbound, hunbounds]
    rw [State.brink_congr (hs'.trans hu)]
    exact hlaid.exprs_congr hmap

theorem TypeRuns.laid {room : Nat} {type : Expr} (h : TypeRuns room s type s') (hs : s.Placed base source) :
    LaidIn base source s.token.pos.index [.expr type] s'.brink := by
  induction h with
  | name hkind hname => exact identExpr_laid (ident_laid hs hname) _
  | tooDeep hlparen hskipped => exact tooDeep_laid hs hskipped
  | @paren room s t u inner rparen hlparen hinner hrparen ih =>
    obtain ⟨hinside, hpos⟩ := hs.inside
    exact closing_laid hpos (ih hinside) (hinner.extends.placed hinside) hrparen
  | @missing room s t u inner rparen hlparen hstart hskipped hrparen =>
    obtain ⟨hinside, hpos⟩ := hs.inside
    have ht := (Extends.of_ok (.skippedExpr _ (.expected _)) hskipped).placed hinside
    exact closing_laid hpos (skippedExpr_laid (.expected _) hinside hskipped) ht hrparen

theorem type?_laid {type : Option Expr} (hs : s.Placed base source) (h : type? s = .ok type s') :
    LaidIn base source s.brink (type.toList.map .expr) s'.brink := by
  obtain ⟨bare, t, type, rfl, hbare, htype⟩ | ⟨rfl, rfl, -⟩ := type?_runs h
  · obtain ⟨hunbound, htokens⟩ := resolveType_unbound htype
    have hlaid := hbare.laid hs
    rw [← State.brink_of_kind hbare.kind_ne_eof] at hlaid
    rw [State.brink_congr htokens]
    exact hlaid.expr_congr hunbound
  · exact .nil (Nat.le_refl _)

end RoseLang.Parse
