import RoseLang.Proofs.Syntax.Marks
import RoseLang.Proofs.Syntax.Shape
import RoseLang.Proofs.Token.Scanning

/-!
# The tokens of a printed expression

The source form of an expression is read as the tokens of the tree, if its names and literals are read as
such. Nothing runs together: operators between operands are set off by spaces, a sign before an operand
that starts with a sign is, too, and words and literals are followed by a space, a parenthesis or the end.
-/

namespace RoseLang

namespace Expr

/-- Whether the expression has no bad part, and its names and literals are read as such. -/
def Legible : Expr → Prop
  | bad .. => False
  | ident _ i => LexesAs i.name .ident
  | literal _ l => LexesAs l.text l.kind.token
  | paren _ _ inner _ => inner.Legible
  | unary _ _ _ operand => operand.Legible
  | binary _ _ _ left right => left.Legible ∧ right.Legible

theorem Legible.complete {e : Expr} (h : e.Legible) : e.Complete := by
  induction e with
  | bad => cases h
  | ident | literal => trivial
  | paren id lparen inner rparen ih => exact ih h
  | unary id op opPos operand ih => exact ih h
  | binary id op opPos left right ihleft ihright => exact ⟨ihleft h.1, ihright h.2⟩

/-- The characters that may be part of a sign after its first one, and some more. -/
def signCharacters : List Char := "+-*/%&|^<>=!~".toList

theorem source_unary {id : NodeId} {op : UnaryOp} {opPos : Pos} {operand : Expr} (hop : op ≠ .not) :
    (unary id op opPos operand).source =
      if operand.source.toList.head?.any (signCharacters.contains ·) then op.spelling ++ " " ++ operand.source
      else op.spelling ++ operand.source := by
  cases op with
  | not => exact absurd rfl hop
  | _ => rfl

end Expr

/-! ### Operators -/

theorem Piece.first_of_sign {c : Char} {cs : List Char} {kind : Kind}
    (hc : c ∈ ['+', '-', '~', '&', '(', ')']) (hkind : Sign.kind? c cs = some kind) :
    first c cs = .token kind (kind.spelling.length - 1) [] := by
  obtain ⟨hplain, hslash, hpoint⟩ : Plain c ∧ c ≠ '/' ∧ c ≠ '.' := by
    simp only [List.mem_cons, List.not_mem_nil, or_false] at hc
    rcases hc with rfl | rfl | rfl | rfl | rfl | rfl
    all_goals exact ⟨by decide, by decide, by decide⟩
  exact (IsFirst.sign hplain (fun h => absurd h hslash) (fun h => absurd h hpoint) hkind).first_eq

theorem Sign.kind?_plain {cs : List Char} (hcs : cs.head?.any (Expr.signCharacters.contains ·) = false) :
    kind? '+' cs = some .add ∧ kind? '-' cs = some .sub ∧ kind? '~' cs = some .invert ∧
      kind? '&' cs = some .and := by
  cases cs with
  | nil => decide
  | cons d ds =>
    have hd : ∀ e ∈ Expr.signCharacters, d ≠ e := by
      rintro e he rfl
      simp [he] at hcs
    have hassign := hd '=' (by decide)
    have hplus := hd '+' (by decide)
    have hminus := hd '-' (by decide)
    have hcaret := hd '^' (by decide)
    simp [kind?, withAssign, hassign, hplus, hminus, hcaret]

theorem UnaryOp.scans {op : UnaryOp} {tail : List Char} (hop : op ≠ .not)
    (htail : tail.head?.any (Expr.signCharacters.contains ·) = false) (base : Pos) (offset : Nat)
    (pending : Bool) :
    ∃ t offset', Scans base offset op.spelling.toList tail pending [t] offset' false ∧ t.kind = op.token := by
  obtain ⟨hplus, hminus, htilde, hand⟩ := Sign.kind?_plain htail
  obtain ⟨c, hc, hpiece⟩ : ∃ c, op.spelling.toList = [c] ∧ Piece.first c tail = .token op.token 0 [] := by
    cases op with
    | not => exact absurd rfl hop
    | plus => exact ⟨'+', by decide, Piece.first_of_sign (by decide) hplus⟩
    | neg => exact ⟨'-', by decide, Piece.first_of_sign (by decide) hminus⟩
    | invert => exact ⟨'~', by decide, Piece.first_of_sign (by decide) htilde⟩
    | ref => exact ⟨'&', by decide, Piece.first_of_sign (by decide) hand⟩
  obtain ⟨t, offset', hscans, hkind⟩ := scans_single base offset pending (by cases op <;> decide) hpiece
  have hends : op.token.endsStatement = false := by cases op <;> rfl
  rw [hends] at hscans
  rw [hc]
  exact ⟨t, offset', hscans, hkind⟩

theorem scans_paren {c : Char} {kind : Kind} (hc : c = '(' ∧ kind = .lparen ∨ c = ')' ∧ kind = .rparen)
    (base : Pos) (offset : Nat) (tail : List Char) (pending : Bool) :
    ∃ t offset', Scans base offset [c] tail pending [t] offset' kind.endsStatement ∧ t.kind = kind := by
  have hpiece : Piece.first c tail = .token kind 0 [] ∧ kind ≠ .eof := by
    rcases hc with ⟨rfl, rfl⟩ | ⟨rfl, rfl⟩
    · exact ⟨Piece.first_of_sign (by decide) rfl, by decide⟩
    · exact ⟨Piece.first_of_sign (by decide) rfl, by decide⟩
  exact scans_single base offset pending hpiece.2 hpiece.1

theorem BinaryOp.isToken (op : BinaryOp) : IsToken op.spelling op.token := by
  cases op <;> exact isToken_of_test (by decide)

theorem UnaryOp.isToken_not : IsToken UnaryOp.not.spelling .not :=
  isToken_of_test (by decide)

/-- However a unary operator is set off, it is one token, and the operand is read after it. -/
theorem scans_unary (id : NodeId) (op : UnaryOp) (opPos : Pos) (operand : Expr) {tail : List Char}
    (htail : Delimits tail) (base : Pos) (offset : Nat) (pending : Bool) :
    ∃ t offset', t.kind = op.token ∧ ∀ us offset'',
      Scans base offset' operand.source.toList tail false us offset'' true →
        Scans base offset (Expr.unary id op opPos operand).source.toList tail pending (t :: us) offset'' true := by
  have hspace : " ".toList = [' '] := by decide
  by_cases hop : op = .not
  · subst hop
    have hsource : (Expr.unary id .not opPos operand).source.toList =
        UnaryOp.not.spelling.toList ++ ([' '] ++ operand.source.toList) := by
      have hnot : "not ".toList = UnaryOp.not.spelling.toList ++ [' '] := by decide
      rw [Expr.source, String.toList_append, hnot, List.append_assoc]
    have hdelimits : Delimits ([' '] ++ operand.source.toList ++ tail) := delimits_cons (.inl rfl)
    obtain ⟨t, offset', hscans, ht, -⟩ := UnaryOp.isToken_not.scans hdelimits (by decide) base offset pending
    refine ⟨t, offset' + 1, ht, fun us offset'' hus => ?_⟩
    rw [hsource]
    exact hscans.append ((scans_space base offset' _ false).append hus)
  · rw [Expr.source_unary hop]
    split
    · next hsign =>
      have hset : ([' '] ++ operand.source.toList ++ tail).head?.any (Expr.signCharacters.contains ·) = false := by
        have hblank : Expr.signCharacters.contains ' ' = false := by decide
        exact hblank
      obtain ⟨t, offset', hscans, ht⟩ := UnaryOp.scans hop hset base offset pending
      refine ⟨t, offset' + 1, ht, fun us offset'' hus => ?_⟩
      rw [String.toList_append, String.toList_append, hspace, List.append_assoc]
      exact hscans.append ((scans_space base offset' _ false).append hus)
    · next hsign =>
      have hset : (operand.source.toList ++ tail).head?.any (Expr.signCharacters.contains ·) = false := by
        rw [htail.head?_any_append (by decide) (by decide) (by decide)]
        exact Bool.eq_false_iff.mpr hsign
      obtain ⟨t, offset', hscans, ht⟩ := UnaryOp.scans hop hset base offset pending
      refine ⟨t, offset', ht, fun us offset'' hus => ?_⟩
      rw [String.toList_append]
      exact hscans.append hus

/-! ### Expressions -/

namespace Expr

/-- Wherever the source form stands before what does not run into it, it is read as the tokens of the tree. -/
def ScansBack (e : Expr) : Prop :=
  ∀ (base : Pos) (offset : Nat) (pending : Bool) {tail : List Char}, Delimits tail →
    ∃ placed ts offset', erase placed = e.erase ∧ Mark.FitAll placed.marks ts ∧
      Scans base offset e.source.toList tail pending ts offset' true

namespace ScansBack

variable {id : NodeId}

theorem ident {i : Ident} (h : LexesAs i.name .ident) : (Expr.ident id i).ScansBack := by
  intro base offset pending tail htail
  obtain ⟨t, offset', hscans, hkind, htext⟩ :=
    (isToken_of_lexesAs rfl h).scans htail (by decide) base offset pending
  refine ⟨.ident id { i with pos := t.pos }, [t], offset', rfl, .single ?_, hscans⟩
  exact Mark.worded_fits_iff.mpr ⟨hkind, rfl, htext.symm⟩

theorem literal {l : Literal} (h : LexesAs l.text l.kind.token) : (Expr.literal id l).ScansBack := by
  intro base offset pending tail htail
  have hliteral : l.kind.token.isLiteral = true ∧ l.kind.token.keepsText = true ∧
      l.kind.token.endsStatement = true ∧ l.kind.token ≠ .eof := by
    cases l.kind <;> decide
  obtain ⟨hisLiteral, hkeeps, hends, heof⟩ := hliteral
  obtain ⟨t, offset', hscans, hkind, htext⟩ :=
    (isToken_of_lexesAs hisLiteral h).scans htail heof base offset pending
  rw [hends] at hscans
  rw [if_pos hkeeps] at htext
  refine ⟨.literal id { l with pos := t.pos }, [t], offset', rfl, .single ?_, hscans⟩
  exact Mark.worded_fits_iff.mpr ⟨hkind, rfl, htext.symm⟩

theorem paren {lparen rparen : Pos} {inner : Expr} (h : inner.ScansBack) :
    (Expr.paren id lparen inner rparen).ScansBack := by
  intro base offset pending tail htail
  have hsource : (Expr.paren id lparen inner rparen).source.toList = ['('] ++ (inner.source.toList ++ [')']) := by
    have hl : "(".toList = ['('] := by decide
    have hr : ")".toList = [')'] := by decide
    rw [Expr.source, String.toList_append, String.toList_append, hl, hr, List.append_assoc]
  obtain ⟨l, offset₁, hscansL, hl⟩ :=
    scans_paren (.inl ⟨rfl, rfl⟩) base offset (inner.source.toList ++ [')'] ++ tail) pending
  have hdelimits : Delimits ([')'] ++ tail) := delimits_cons (.inr (.inl rfl))
  obtain ⟨placed, ts, offset₂, herase, hfit, hscans⟩ := h base offset₁ false hdelimits
  obtain ⟨r, offset₃, hscansR, hr⟩ := scans_paren (.inr ⟨rfl, rfl⟩) base offset₂ tail true
  refine ⟨.paren id l.pos placed r.pos, l :: ts ++ [r], offset₃, ?_, ?_, ?_⟩
  · rw [Expr.erase, Expr.erase, herase]
  · refine .append (.cons (Mark.placed_fits_iff.mpr ⟨hl, rfl⟩) hfit) (.single ?_)
    exact Mark.placed_fits_iff.mpr ⟨hr, rfl⟩
  · rw [hsource]
    exact hscansL.append (hscans.append hscansR)

theorem unary {op : UnaryOp} {opPos : Pos} {operand : Expr} (h : operand.ScansBack) :
    (Expr.unary id op opPos operand).ScansBack := by
  intro base offset pending tail htail
  obtain ⟨t, offset₁, ht, hscansOp⟩ := scans_unary id op opPos operand htail base offset pending
  obtain ⟨placed, ts, offset₂, herase, hfit, hscans⟩ := h base offset₁ false htail
  refine ⟨.unary id op t.pos placed, t :: ts, offset₂, ?_, ?_, hscansOp ts offset₂ hscans⟩
  · rw [Expr.erase, Expr.erase, herase]
  · exact .cons (Mark.placed_fits_iff.mpr ⟨ht, rfl⟩) hfit

theorem binary {op : BinaryOp} {opPos : Pos} {left right : Expr} (hleft : left.ScansBack) (hright : right.ScansBack) :
    (Expr.binary id op opPos left right).ScansBack := by
  intro base offset pending tail htail
  have hsource : (Expr.binary id op opPos left right).source.toList =
      left.source.toList ++ ([' '] ++ (op.spelling.toList ++ ([' '] ++ right.source.toList))) := by
    have hspace : " ".toList = [' '] := by decide
    rw [Expr.source]
    simp only [String.toList_append, hspace, List.append_assoc]
  have hdelimits : ∀ cs, Delimits ([' '] ++ cs ++ tail) := fun cs => delimits_cons (.inl rfl)
  obtain ⟨placedLeft, ts, offset₁, heraseLeft, hfitLeft, hscansLeft⟩ :=
    hleft base offset pending (hdelimits (op.spelling.toList ++ ([' '] ++ right.source.toList)))
  have hends : op.token.endsStatement = false := by cases op <;> rfl
  obtain ⟨t, offset₂, hscansOp, ht, -⟩ := op.isToken.scans (hdelimits right.source.toList)
    (by cases op <;> decide) base (offset₁ + 1) true
  rw [hends] at hscansOp
  obtain ⟨placedRight, us, offset₃, heraseRight, hfitRight, hscansRight⟩ :=
    hright base (offset₂ + 1) false htail
  refine ⟨.binary id op t.pos placedLeft placedRight, ts ++ t :: us, offset₃, ?_, ?_, ?_⟩
  · rw [Expr.erase, Expr.erase, heraseLeft, heraseRight]
  · exact hfitLeft.append (.cons (Mark.placed_fits_iff.mpr ⟨ht, rfl⟩) hfitRight)
  · rw [hsource]
    have hafter := (scans_space base offset₂ _ false).append hscansRight
    have hop := (scans_space base offset₁ _ true).append (hscansOp.append hafter)
    exact hscansLeft.append hop

end ScansBack

theorem Legible.scansBack {e : Expr} (h : e.Legible) : e.ScansBack := by
  induction e with
  | bad => cases h
  | ident id i => exact .ident h
  | literal id l => exact .literal h
  | paren id lparen inner rparen ih => exact .paren (ih h)
  | unary id op opPos operand ih => exact .unary (ih h)
  | binary id op opPos left right ihleft ihright => exact .binary (ihleft h.1) (ihright h.2)

end Expr

end RoseLang
