import RoseLang.Proofs.Syntax.Printing

/-!
# Expressions told by their S-expressions

Two legible expressions with the same S-expression differ at most in their numbers, positions and bindings. A text
which starts with an S-expression that a delimiter follows tells where this ends: a name or literal ends where the
lexer ends it, whatever blanks, parentheses and quotes a literal contains, and everything else is in parentheses,
where a blank before the next part or the closing parenthesis tells how many parts there are. So the operators that
are both unary and binary are told apart by what follows their first operand.
-/

namespace RoseLang

/-- Of two equal texts that start with a token which a delimiter follows, the tokens are the same. -/
theorem IsToken.append_inj {text text' : String} {kind kind' : Kind} {tail tail' : List Char} (h : IsToken text kind)
    (h' : IsToken text' kind') (htail : Delimits tail) (htail' : Delimits tail')
    (heq : text.toList ++ tail = text'.toList ++ tail') : kind = kind' ∧ text = text' ∧ tail = tail' := by
  obtain ⟨c, cs, htext, hpiece⟩ := h
  obtain ⟨c', cs', htext', hpiece'⟩ := h'
  rw [htext, htext', List.cons_append, List.cons_append] at heq
  obtain ⟨rfl, hrest⟩ := List.cons.inj heq
  have hfirst : Piece.first c (cs ++ tail) = .token kind cs.length [] := Piece.first_append htail hpiece
  have hfirst' : Piece.first c (cs' ++ tail') = .token kind' cs'.length [] := Piece.first_append htail' hpiece'
  rw [hrest, hfirst'] at hfirst
  obtain ⟨hkind, hlength, -⟩ := Piece.token.inj hfirst
  obtain ⟨hcs, htails⟩ := List.append_inj hrest hlength.symm
  refine ⟨hkind.symm, ?_, htails⟩
  rw [← String.toList_inj, htext, htext', hcs]

/-- No name or literal starts with a parenthesis. -/
theorem IsToken.append_ne_paren {text : String} {kind : Kind} (h : IsToken text kind) (hkind : kind.isLiteral = true)
    (tail cs : List Char) : text.toList ++ tail ≠ '(' :: cs := by
  obtain ⟨c, more, htext, hpiece⟩ := h
  rw [htext]
  intro heq
  obtain ⟨rfl, -⟩ := List.cons.inj heq
  have hparen : Piece.first '(' more = .token .lparen 0 [] := Piece.first_of_sign (by decide) rfl
  rw [hparen] at hpiece
  obtain ⟨rfl, -, -⟩ := Piece.token.inj hpiece
  cases hkind

theorem UnaryOp.isToken (op : UnaryOp) : IsToken op.spelling op.token := by
  cases op <;> exact isToken_of_test (by decide)

namespace Expr

/-! ### Names and literals -/

/-- The name or literal of a kind, without number, position and binding. -/
def leaf (kind : Kind) (text : String) : Expr :=
  match LiteralKind.ofToken? kind with
  | some literalKind => .literal .dummy ⟨.none, literalKind, text⟩
  | none => .ident .dummy ⟨.dummy, .none, text, .unbound⟩

/-- The expression is a single token that is a name or a literal of the kind. -/
structure IsLeaf (e : Expr) (kind : Kind) : Prop where
  isLiteral : kind.isLiteral = true
  isToken : IsToken e.sexp kind
  erase : e.erase = leaf kind e.sexp

theorem isLeaf_ident {id : NodeId} {i : Ident} (h : (ident id i).Legible) : (ident id i).IsLeaf .ident :=
  ⟨rfl, isToken_of_lexesAs rfl h, rfl⟩

theorem isLeaf_literal {id : NodeId} {l : Literal} (h : (literal id l).Legible) :
    (literal id l).IsLeaf l.kind.token := by
  have hkind : l.kind.token.isLiteral = true := by cases l.kind <;> rfl
  refine ⟨hkind, isToken_of_lexesAs hkind h, ?_⟩
  rw [leaf, LiteralKind.ofToken?_token]
  rfl

/-! ### Everything else -/

/-- What is written in parentheses. -/
inductive Frame where
  | paren
  | unary (op : UnaryOp)
  | binary (op : BinaryOp)

namespace Frame

/-- The word behind the parenthesis. -/
def word : Frame → String
  | paren => "paren"
  | unary op => op.spelling
  | binary op => op.spelling

/-- The number of parts. -/
def arity : Frame → Nat
  | paren | unary _ => 1
  | binary _ => 2

/-- The kind as which the word would be read. -/
def kind : Frame → Kind
  | paren => .ident
  | unary op => op.token
  | binary op => op.token

theorem isToken (f : Frame) : IsToken f.word f.kind := by
  cases f with
  | paren => exact isToken_of_test (by decide)
  | unary op => exact op.isToken
  | binary op => exact op.isToken

/-- Only unary and binary operators share words, and they differ in the number of parts. -/
theorem eq_of_kind {f f' : Frame} (hkind : f.kind = f'.kind) (harity : f.arity = f'.arity) : f = f' := by
  have hparen : ∀ op : UnaryOp, op.token ≠ .ident := by
    intro op
    cases op <;> decide
  cases f with
  | paren =>
    cases f' with
    | paren => rfl
    | unary op' => exact absurd hkind.symm (hparen op')
    | binary op' => cases harity
  | unary op =>
    cases f' with
    | paren => exact absurd hkind (hparen op)
    | unary op' =>
      have hop : UnaryOp.ofToken? op.token = UnaryOp.ofToken? op'.token := congrArg _ hkind
      rw [UnaryOp.ofToken?_token, UnaryOp.ofToken?_token] at hop
      rw [Option.some.inj hop]
    | binary op' => cases harity
  | binary op =>
    cases f' with
    | paren | unary => cases harity
    | binary op' =>
      have hop : BinaryOp.ofToken? op.token = BinaryOp.ofToken? op'.token := congrArg _ hkind
      rw [BinaryOp.ofToken?_token, BinaryOp.ofToken?_token] at hop
      rw [Option.some.inj hop]

end Frame

/-- The expression is a frame around parts. -/
inductive Frames : Expr → Frame → List Expr → Prop where
  | paren {id lparen inner rparen} : Frames (.paren id lparen inner rparen) .paren [inner]
  | unary {id op opPos operand} : Frames (.unary id op opPos operand) (.unary op) [operand]
  | binary {id op opPos left right} : Frames (.binary id op opPos left right) (.binary op) [left, right]

/-- A legible expression is a name or literal, or is framed. -/
theorem Legible.isLeaf_or_frames {e : Expr} (h : e.Legible) :
    (∃ kind, e.IsLeaf kind) ∨ ∃ f parts, e.Frames f parts := by
  cases e with
  | bad => cases h
  | ident => exact .inl ⟨_, isLeaf_ident h⟩
  | literal => exact .inl ⟨_, isLeaf_literal h⟩
  | paren => exact .inr ⟨_, _, .paren⟩
  | unary => exact .inr ⟨_, _, .unary⟩
  | binary => exact .inr ⟨_, _, .binary⟩

/-- The parts, each behind a blank. -/
def spaced (parts : List Expr) : List Char := parts.flatMap fun e => ' ' :: e.sexp.toList

namespace Frames

variable {e e' : Expr} {f : Frame} {parts parts' : List Expr}

theorem toList_sexp (h : e.Frames f parts) : e.sexp.toList = '(' :: (f.word.toList ++ spaced parts ++ [')']) := by
  have hopen : "(".toList = ['('] := by decide
  have hclose : ")".toList = [')'] := by decide
  have hblank : " ".toList = [' '] := by decide
  have hparen : "(paren ".toList = '(' :: ("paren".toList ++ [' ']) := by decide
  cases h with
  | paren => simp [sexp, spaced, Frame.word, hparen, hclose]
  | unary | binary => simp [sexp, spaced, Frame.word, hopen, hblank, hclose]

theorem length_parts (h : e.Frames f parts) : parts.length = f.arity := by
  cases h <;> rfl

theorem legible (h : e.Frames f parts) (he : e.Legible) : ∀ p ∈ parts, p.Legible := by
  cases h with
  | paren | unary => exact List.forall_mem_singleton.mpr he
  | binary => exact List.forall_mem_cons.mpr ⟨he.1, List.forall_mem_singleton.mpr he.2⟩

theorem erase_eq (h : e.Frames f parts) (h' : e'.Frames f parts') (hparts : parts.map erase = parts'.map erase) :
    e.erase = e'.erase := by
  cases h with
  | paren =>
    cases h'
    rw [erase, erase, (List.cons.inj hparts).1]
  | unary =>
    cases h'
    rw [erase, erase, (List.cons.inj hparts).1]
  | binary =>
    cases h'
    obtain ⟨hleft, hright⟩ := List.cons.inj hparts
    rw [erase, erase, hleft, (List.cons.inj hright).1]

end Frames

/-! ### Reading -/

/-- In front of a delimiter the S-expression tells the expression and where it ends. -/
def Told (e : Expr) : Prop :=
  ∀ {e' : Expr} {tail tail' : List Char}, e'.Legible → Delimits tail → Delimits tail' →
    e.sexp.toList ++ tail = e'.sexp.toList ++ tail' → e.erase = e'.erase ∧ tail = tail'

theorem IsLeaf.told {e : Expr} {kind : Kind} (h : e.IsLeaf kind) : e.Told := by
  intro e' tail tail' he' htail htail' heq
  obtain ⟨kind', h'⟩ | ⟨f, parts, hframes⟩ := he'.isLeaf_or_frames
  · obtain ⟨rfl, hsexp, htails⟩ := h.isToken.append_inj h'.isToken htail htail' heq
    rw [h.erase, h'.erase, hsexp]
    exact ⟨rfl, htails⟩
  · rw [hframes.toList_sexp] at heq
    exact absurd heq (h.isToken.append_ne_paren h.isLiteral _ _)

theorem delimits_spaced (parts : List Expr) (tail : List Char) : Delimits (spaced parts ++ ')' :: tail) := by
  cases parts with
  | nil => exact delimits_cons (.inr (.inl rfl))
  | cons p parts => exact delimits_cons (.inl rfl)

theorem spaced_append_inj {parts parts' : List Expr} {tail tail' : List Char} (htold : ∀ p ∈ parts, p.Told)
    (hlegible : ∀ p ∈ parts', p.Legible)
    (heq : spaced parts ++ ')' :: tail = spaced parts' ++ ')' :: tail') :
    parts.map erase = parts'.map erase ∧ tail = tail' := by
  have hcons : ∀ (p : Expr) (ps : List Expr) (tail : List Char), spaced (p :: ps) ++ ')' :: tail =
      ' ' :: (p.sexp.toList ++ (spaced ps ++ ')' :: tail)) := by simp [spaced]
  induction parts generalizing parts' with
  | nil =>
    cases parts' with
    | nil => exact ⟨rfl, (List.cons.inj heq).2⟩
    | cons p' parts' =>
      rw [hcons] at heq
      exact absurd (List.cons.inj heq).1 (by decide)
  | cons p parts ih =>
    obtain ⟨hp, hparts⟩ := List.forall_mem_cons.mp htold
    cases parts' with
    | nil =>
      rw [hcons] at heq
      exact absurd (List.cons.inj heq).1 (by decide)
    | cons p' parts' =>
      obtain ⟨hp', hparts'⟩ := List.forall_mem_cons.mp hlegible
      rw [hcons, hcons] at heq
      obtain ⟨herase, hrest⟩ :=
        hp hp' (delimits_spaced parts tail) (delimits_spaced parts' tail') (List.cons.inj heq).2
      obtain ⟨hmore, htails⟩ := ih hparts hparts' hrest
      rw [List.map_cons, List.map_cons, herase, hmore]
      exact ⟨rfl, htails⟩

theorem Frames.told {e : Expr} {f : Frame} {parts : List Expr} (h : e.Frames f parts)
    (htold : ∀ p ∈ parts, p.Told) : e.Told := by
  intro e' tail tail' he' htail htail' heq
  rw [h.toList_sexp] at heq
  obtain ⟨kind', hleaf⟩ | ⟨f', parts', h'⟩ := he'.isLeaf_or_frames
  · exact absurd heq.symm (hleaf.isToken.append_ne_paren hleaf.isLiteral _ _)
  · rw [h'.toList_sexp] at heq
    have hopened : f.word.toList ++ (spaced parts ++ ')' :: tail) =
        f'.word.toList ++ (spaced parts' ++ ')' :: tail') := by
      simpa using heq
    obtain ⟨hkind, -, hspaced⟩ :=
      f.isToken.append_inj f'.isToken (delimits_spaced parts tail) (delimits_spaced parts' tail') hopened
    obtain ⟨hparts, htails⟩ := spaced_append_inj htold (h'.legible he') hspaced
    have harity : f.arity = f'.arity := by
      rw [← h.length_parts, ← h'.length_parts, ← List.length_map, hparts, List.length_map]
    obtain rfl := Frame.eq_of_kind hkind harity
    exact ⟨h.erase_eq h' hparts, htails⟩

theorem Legible.told {e : Expr} (h : e.Legible) : e.Told := by
  induction e with
  | bad => cases h
  | ident id i => exact (isLeaf_ident h).told
  | literal id l => exact (isLeaf_literal h).told
  | paren id lparen inner rparen ih => exact Frames.paren.told (List.forall_mem_singleton.mpr (ih h))
  | unary id op opPos operand ih => exact Frames.unary.told (List.forall_mem_singleton.mpr (ih h))
  | binary id op opPos left right ihleft ihright =>
    exact Frames.binary.told (List.forall_mem_cons.mpr ⟨ihleft h.1, List.forall_mem_singleton.mpr (ihright h.2)⟩)

/-- Legible expressions with the same S-expression are the same but for their numbers, positions and bindings. -/
theorem erase_eq_of_sexp_eq {e e' : Expr} (h : e.Legible) (h' : e'.Legible) (hsexp : e.sexp = e'.sexp) :
    e.erase = e'.erase :=
  (h.told h' delimits_nil delimits_nil (by rw [hsexp])).1

end Expr

end RoseLang
