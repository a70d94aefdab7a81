import RoseLang.Proofs.Token.Tokenize

/-!
# Reading a text piece by piece

How the tokens of a text follow from its pieces as long as no piece is faulty. `Scans` says which tokens
stand for the characters before a tail; it is stated for single pieces, with the tail in place so that a
sign or a word cannot be cut, and composed.
-/

namespace RoseLang

/-- The lexer at a place of the text, where no fault has been met. -/
def Lexer.clean (base : Pos) (offset : Nat) (rest : List Char) (pending : Bool) : Lexer :=
  ⟨base, offset, rest, pending, []⟩

/-- From `offset` on, the characters `cs` before the tail `tail` are the tokens `ts`, all without a fault.
A line end is a terminator before them if `pending` is set, and after them if `pending'` is. -/
def Scans (base : Pos) (offset : Nat) (cs tail : List Char) (pending : Bool) (ts : List Token)
    (offset' : Nat) (pending' : Bool) : Prop :=
  (Lexer.clean base offset (cs ++ tail) pending).lexemes =
    ts.map (Lexeme.mk · []) ++ (Lexer.clean base offset' tail pending').lexemes

theorem Scans.append {base : Pos} {offset offset' offset'' : Nat} {cs ds tail : List Char}
    {pending pending' pending'' : Bool} {ts us : List Token}
    (h : Scans base offset cs (ds ++ tail) pending ts offset' pending')
    (h' : Scans base offset' ds tail pending' us offset'' pending'') :
    Scans base offset (cs ++ ds) tail pending (ts ++ us) offset'' pending'' := by
  rw [Scans] at h h' ⊢
  rw [List.append_assoc, h, h', List.map_append, List.append_assoc]

theorem scans_space (base : Pos) (offset : Nat) (tail : List Char) (pending : Bool) :
    Scans base offset [' '] tail pending [] (offset + 1) pending := by
  have hpiece : Piece.first ' ' tail = .gap 0 false none := (Piece.IsFirst.blank (.inl rfl)).first_eq
  have hnext := Lexer.next_of_gap (l := Lexer.clean base offset (' ' :: tail) pending) rfl hpiece rfl
  exact Lexer.lexemes_congr hnext

theorem scans_token {c : Char} {cs tail : List Char} {kind : Kind} (base : Pos) (offset : Nat) (pending : Bool)
    (hkind : kind ≠ .eof) (hpiece : Piece.first c (cs ++ tail) = .token kind cs.length []) :
    ∃ t offset', Scans base offset (c :: cs) tail pending [t] offset' kind.endsStatement ∧ t.kind = kind ∧
      t.text = if kind.keepsText then String.ofList (c :: cs) else "" := by
  have hnext := Lexer.next_of_token (l := Lexer.clean base offset (c :: (cs ++ tail)) pending) rfl hpiece
  have hafter : (Lexer.clean base offset (c :: (cs ++ tail)) pending).afterToken kind cs.length [] =
      Lexer.clean base (offset + Text.utf8Length (c :: cs)) tail kind.endsStatement := by
    simp [Lexer.afterToken, Lexer.skip, Lexer.clean, Lexer.record]
  rw [List.take_left, hafter] at hnext
  have hlexemes := Lexer.lexemes_of_next rfl hnext hkind
  exact ⟨_, _, hlexemes, rfl, rfl⟩

theorem scans_single {c : Char} {tail : List Char} {kind : Kind} (base : Pos) (offset : Nat) (pending : Bool)
    (hkind : kind ≠ .eof) (hpiece : Piece.first c tail = .token kind 0 []) :
    ∃ t offset', Scans base offset [c] tail pending [t] offset' kind.endsStatement ∧ t.kind = kind := by
  have hpiece' : Piece.first c ([] ++ tail) = .token kind ([] : List Char).length [] := hpiece
  obtain ⟨t, offset', hscans, ht, -⟩ := scans_token base offset pending hkind hpiece'
  exact ⟨t, offset', hscans, ht⟩

/-- At the end of the text a terminator is added if one is due. -/
theorem lexemes_clean_nil (base : Pos) (offset : Nat) :
    (Lexer.clean base offset [] true).lexemes =
      [⟨⟨.semi, ⟨base.advance offset, base.advance offset⟩, ""⟩, []⟩,
        ⟨⟨.eof, ⟨base.advance offset, base.advance offset⟩, ""⟩, []⟩] := by
  have hnext : ∀ pending, (Lexer.clean base offset [] pending).next =
      (⟨if pending then .semi else .eof, ⟨base.advance offset, base.advance offset⟩, ""⟩,
        Lexer.clean base offset [] false) := fun pending => Lexer.next_of_nil rfl
  have hsemi := Lexer.lexemes_of_next rfl (hnext true) (by simp)
  have htake : (Lexer.clean base offset [] false).takeErrors.2 = Lexer.clean base offset [] false := rfl
  have heof : (Lexer.clean base offset [] false).lexemes = [(Lexer.clean base offset [] false).nextLexeme.1] := by
    apply Lexer.lexemes_of_eof
    rw [htake, hnext false]
    rfl
  rw [hsemi, heof, Lexer.nextLexeme, htake, hnext false]
  rfl

/-- A text whose last token may end a statement is read to its end. -/
theorem Scans.lexemes_ofText {source : String} {base : Pos} {ts : List Token} {offset : Nat}
    (h : Scans base 0 source.toList [] false ts offset true) :
    ∃ semi eof : Token, semi.kind = .semi ∧ eof.kind = .eof ∧
      (Lexer.ofText source base).lexemes = (ts ++ [semi, eof]).map (Lexeme.mk · []) := by
  rw [Scans, List.append_nil, lexemes_clean_nil] at h
  refine ⟨⟨.semi, ⟨base.advance offset, base.advance offset⟩, ""⟩,
    ⟨.eof, ⟨base.advance offset, base.advance offset⟩, ""⟩, rfl, rfl, ?_⟩
  rw [List.map_append]
  exact h

/-! ### Texts of single tokens -/

/-- The text is a single token of the kind. -/
def IsToken (text : String) (kind : Kind) : Prop :=
  ∃ c cs, text.toList = c :: cs ∧ Piece.first c cs = .token kind cs.length []

/-- A test for a single token. -/
def isToken (text : String) (kind : Kind) : Bool :=
  match text.toList with
  | [] => false
  | c :: cs => Piece.first c cs = .token kind cs.length []

theorem isToken_of_test {text : String} {kind : Kind} (h : isToken text kind = true) : IsToken text kind := by
  rw [isToken] at h
  split at h
  · cases h
  · next c cs htext => exact ⟨c, cs, htext, of_decide_eq_true h⟩

theorem IsToken.scans {text : String} {kind : Kind} {tail : List Char} (h : IsToken text kind)
    (htail : Delimits tail) (hkind : kind ≠ .eof) (base : Pos) (offset : Nat) (pending : Bool) :
    ∃ t offset', Scans base offset text.toList tail pending [t] offset' kind.endsStatement ∧ t.kind = kind ∧
      t.text = if kind.keepsText then text else "" := by
  obtain ⟨c, cs, htext, hpiece⟩ := h
  have happend := Piece.first_append htail hpiece
  obtain ⟨t, offset', hscans, hkind', htext'⟩ := scans_token base offset pending hkind happend
  rw [htext]
  refine ⟨t, offset', hscans, hkind', ?_⟩
  rw [htext', ← htext, String.ofList_toList]

/-- The text is read as one token of the kind, without a fault. The terminator after it is that for the end
of the input. -/
def LexesAs (text : String) (kind : Kind) : Prop :=
  (Lexer.ofText text ⟨1⟩).tokenize.2 = [] ∧
    (Lexer.ofText text ⟨1⟩).tokenize.1.map (fun t => (t.kind, t.text)) =
      [(kind, text), (.semi, ""), (.eof, "")]

instance (text : String) (kind : Kind) : Decidable (LexesAs text kind) := inferInstanceAs (Decidable (_ ∧ _))

theorem Kind.isWordOrLiteral_of_isLiteral {k : Kind} (h : k.isLiteral = true) : k.isWordOrLiteral = true := by
  rw [isWordOrLiteral, h, Bool.true_or, Bool.true_or]

theorem Kind.keepsText_of_isWordOrLiteral {k : Kind} (h : k.isWordOrLiteral = true) : k.keepsText = true := by
  rw [keepsText, ← isWordOrLiteral, h, Bool.true_or]

/-- A word or literal has no more characters than there are to read. -/
theorem Lexer.length_text_next_le (l : Lexer) (h : l.next.1.kind.isWordOrLiteral = true) :
    l.next.1.text.toList.length ≤ l.rest.length := by
  fun_induction next l with
  | case1 l hrest =>
    cases hpending : l.pending <;> simp [hpending] at h ⊢
  | case2 l c cs hrest more breaks fault hpiece l' width l'' hbreaks => cases h
  | case3 l c cs hrest more breaks fault hpiece l' width l'' hbreaks ih =>
    apply Nat.le_trans (ih h)
    simp only [l'', l', skip, hrest, List.length_drop]
    omega
  | case4 l c cs hrest kind more faults hpiece l' text =>
    dsimp only [text]
    split
    · rw [String.toList_ofList, hrest, List.length_take]
      exact Nat.min_le_right _ _
    · exact Nat.zero_le _

/-- A word or literal that is the first token and the whole text. -/
theorem isToken_of_head {text : String} {kind : Kind} (hkind : kind.isWordOrLiteral = true)
    (herrors : (Lexer.ofText text ⟨1⟩).tokenize.2 = [])
    (hhead : (Lexer.ofText text ⟨1⟩).tokenize.1.head?.map (fun t => (t.kind, t.text)) = some (kind, text)) :
    IsToken text kind := by
  let l := Lexer.ofText text ⟨1⟩
  -- The first token has the kind, the whole text and no fault.
  obtain ⟨rest, hlexemes⟩ := l.lexemes_eq_cons
  have hnextLexeme : l.nextLexeme.1 = ⟨l.next.1, l.next.2.errors⟩ := rfl
  have hread : l.tokenize = (l.lexemes.map Lexeme.token, l.lexemes.flatMap Lexeme.errors) := rfl
  rw [hread, hlexemes, hnextLexeme] at herrors hhead
  rw [List.map_cons, List.head?_cons, Option.map_some, Option.some.injEq, Prod.mk.injEq] at hhead
  obtain ⟨hnextKind, hnextText⟩ := hhead
  have hnextErrors : l.next.2.errors = [] := (List.append_eq_nil_iff.mp herrors).1
  -- So the first piece is this token, and it leaves nothing of the text.
  cases hrest : text.toList with
  | nil =>
    rw [Lexer.next_of_nil (l := l) hrest] at hnextKind
    rw [← hnextKind] at hkind
    cases hkind
  | cons c cs =>
    refine ⟨c, cs, hrest, ?_⟩
    cases hpiece : Piece.first c cs with
    | gap more breaks fault =>
      have hnext := Lexer.next_of_gap (l := l) hrest hpiece (Bool.and_false _)
      have hlength := Lexer.length_text_next_le _ ((congrArg (fun r => r.1.kind.isWordOrLiteral) hnext).symm.trans
        (hnextKind ▸ hkind))
      rw [← hnext] at hlength
      rw [hnextText, hrest] at hlength
      simp only [Lexer.afterGap, Lexer.skip, l, Lexer.ofText, hrest, List.length_drop, List.length_cons] at hlength
      omega
    | token kind' more faults =>
      have hnext := Lexer.next_of_token (l := l) hrest hpiece
      rw [hnext] at hnextKind hnextText hnextErrors
      obtain rfl := hnextKind
      have hfaults : faults = [] := by simpa [Lexer.afterToken, Lexer.record, l, Lexer.ofText] using hnextErrors
      subst hfaults
      have hkeeps : kind'.keepsText = true := Kind.keepsText_of_isWordOrLiteral hkind
      have hle := Piece.more_le_of_first hpiece
      dsimp only at hnextText
      rw [if_pos hkeeps] at hnextText
      have hlength := congrArg (fun word => word.toList.length) hnextText
      simp only [String.toList_ofList, hrest, List.length_take, List.length_cons] at hlength
      have hmore : more = cs.length := by omega
      rw [hmore]

theorem isToken_of_lexesAs {text : String} {kind : Kind} (hkind : kind.isLiteral = true)
    (h : LexesAs text kind) : IsToken text kind := by
  refine isToken_of_head (Kind.isWordOrLiteral_of_isLiteral hkind) h.1 ?_
  rw [← List.head?_map, h.2, List.head?_cons]

/-- A word or literal on its own is followed by the terminator for the end of the input. -/
theorem IsToken.tokenize {text : String} {kind : Kind} (hkind : kind.isLiteral = true) (h : IsToken text kind) :
    ∃ t stop, (Lexer.ofText text ⟨1⟩).tokenize = ([t, ⟨.semi, ⟨stop, stop⟩, ""⟩, ⟨.eof, ⟨stop, stop⟩, ""⟩], []) ∧
      t.kind = kind ∧ t.text = text := by
  have heof : kind ≠ .eof := by
    rintro rfl
    cases hkind
  have hends : kind.endsStatement = true := by revert hkind; cases kind <;> decide
  have hkeeps : kind.keepsText = true := Kind.keepsText_of_isWordOrLiteral (Kind.isWordOrLiteral_of_isLiteral hkind)
  obtain ⟨t, offset, hscans, ht, htext⟩ := h.scans delimits_nil heof ⟨1⟩ 0 false
  rw [if_pos hkeeps] at htext
  rw [Scans, List.append_nil, hends, lexemes_clean_nil] at hscans
  have hlexemes : (Lexer.ofText text ⟨1⟩).lexemes = _ := hscans
  refine ⟨t, Pos.advance ⟨1⟩ offset, ?_, ht, htext⟩
  rw [Lexer.tokenize, hlexemes]
  rfl

theorem lexesAs_of_isToken {text : String} {kind : Kind} (hkind : kind.isLiteral = true)
    (h : IsToken text kind) : LexesAs text kind := by
  obtain ⟨t, stop, htokenize, rfl, rfl⟩ := h.tokenize hkind
  rw [LexesAs, htokenize]
  exact ⟨rfl, rfl⟩

end RoseLang
