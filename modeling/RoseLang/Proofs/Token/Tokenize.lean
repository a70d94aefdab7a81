import RoseLang.Proofs.Token.Extent
import RoseLang.Proofs.Token.Lexemes

/-!
# From pieces to tokens

What the lexer makes of the piece in front of it, one equation for each kind of piece: first for the next
token, then for all tokens. `PassesGap` and `ReadsToken` say the same with the characters of the piece in
place, and `tokenize_induction` goes through a text piece by piece.
-/

namespace RoseLang

open Text

namespace Lexer

/-- The lexer after a gap that stands for no terminator. -/
def afterGap (l : Lexer) (more : Nat) (fault : Option LexicalFault) : Lexer :=
  let l' := l.skip (more + 1)
  { l' with errors := (l.record (fault.map (FaultAt.mk 0 (l'.offset - l.offset))).toList).errors }

/-- The lexer after a token. -/
def afterToken (l : Lexer) (kind : Kind) (more : Nat) (faults : List FaultAt) : Lexer :=
  { l.skip (more + 1) with pending := kind.endsStatement, errors := (l.record faults).errors }

theorem next_of_nil {l : Lexer} (hrest : l.rest = []) :
    l.next = (⟨if l.pending then .semi else .eof, ⟨l.pos, l.pos⟩, ""⟩, { l with pending := false }) := by
  rw [next]
  split
  · rfl
  · next heq =>
    rw [hrest] at heq
    cases heq

section
variable {l : Lexer} {c : Char} {cs : List Char} (hrest : l.rest = c :: cs)
include hrest

theorem next_of_cons :
    l.next = match Piece.first c cs with
      | .gap more breaks fault =>
        if breaks && l.pending then
          (⟨.semi, ⟨l.pos, (l.afterGap more fault).pos⟩, "\n"⟩, { l.afterGap more fault with pending := false })
        else (l.afterGap more fault).next
      | .token kind more faults =>
        (⟨kind, ⟨l.pos, (l.afterToken kind more faults).pos⟩,
            if kind.keepsText then String.ofList (c :: cs.take more) else ""⟩,
          l.afterToken kind more faults) := by
  rw [next.eq_def l]
  split
  · next heq =>
    rw [hrest] at heq
    cases heq
  · next d ds heq =>
    rw [hrest] at heq
    obtain ⟨rfl, rfl⟩ := List.cons.inj heq
    cases Piece.first c cs with
    | gap more breaks fault => rfl
    | token kind more faults =>
      dsimp only
      rw [hrest]
      rfl

/-- A gap is passed over, unless it stands for a terminator. -/
theorem next_of_gap {more : Nat} {breaks : Bool} {fault : Option LexicalFault}
    (hpiece : Piece.first c cs = .gap more breaks fault) (hbreaks : (breaks && l.pending) = false) :
    l.next = (l.afterGap more fault).next := by
  rw [next_of_cons hrest, hpiece]
  dsimp only
  rw [hbreaks]
  rfl

theorem next_of_break {more : Nat} {breaks : Bool} {fault : Option LexicalFault}
    (hpiece : Piece.first c cs = .gap more breaks fault) (hbreaks : (breaks && l.pending) = true) :
    l.next =
      (⟨.semi, ⟨l.pos, (l.afterGap more fault).pos⟩, "\n"⟩, { l.afterGap more fault with pending := false }) := by
  rw [next_of_cons hrest, hpiece]
  dsimp only
  rw [hbreaks]
  rfl

theorem next_of_token {kind : Kind} {more : Nat} {faults : List FaultAt}
    (hpiece : Piece.first c cs = .token kind more faults) :
    l.next =
      (⟨kind, ⟨l.pos, (l.afterToken kind more faults).pos⟩,
          if kind.keepsText then String.ofList (c :: cs.take more) else ""⟩,
        l.afterToken kind more faults) := by
  rw [next_of_cons hrest, hpiece]

end

theorem lexemes_eq_cons (l : Lexer) : ∃ rest, l.lexemes = l.nextLexeme.1 :: rest := by
  rw [lexemes]
  split
  · exact ⟨[], rfl⟩
  · exact ⟨_, rfl⟩

theorem lexemes_of_eof {l : Lexer} (h : l.takeErrors.2.next.1.kind = .eof) : l.lexemes = [l.nextLexeme.1] := by
  rw [lexemes, dif_pos h]

theorem lexemes_of_ne_eof {l : Lexer} (h : l.takeErrors.2.next.1.kind ≠ .eof) :
    l.lexemes = l.nextLexeme.1 :: l.nextLexeme.2.lexemes := by
  rw [lexemes, dif_neg h]

theorem lexemes_congr {l l' : Lexer} (h : l.takeErrors.2.next = l'.takeErrors.2.next) :
    l.lexemes = l'.lexemes := by
  rw [lexemes.eq_def l, lexemes.eq_def l']
  simp only [nextLexeme, h]

theorem lexemes_of_next {l l' : Lexer} {t : Token} (hclean : l.takeErrors.2 = l) (hnext : l.next = (t, l'))
    (ht : t.kind ≠ .eof) : l.lexemes = ⟨t, l'.errors⟩ :: l'.lexemes := by
  have hkind : l.takeErrors.2.next.1.kind ≠ .eof := by rwa [hclean, hnext]
  rw [lexemes_of_ne_eof hkind, nextLexeme, hclean, hnext]

/-- The lexer with further faults, met before its own. -/
def keeping (l : Lexer) (es : List LexError) : Lexer := { l with errors := es ++ l.errors }

theorem afterGap_keeping (l : Lexer) (es : List LexError) (more : Nat) (fault : Option LexicalFault) :
    (l.keeping es).afterGap more fault = (l.afterGap more fault).keeping es := by
  simp [afterGap, keeping, record, skip, List.append_assoc]

theorem afterToken_keeping (l : Lexer) (es : List LexError) (kind : Kind) (more : Nat) (faults : List FaultAt) :
    (l.keeping es).afterToken kind more faults = (l.afterToken kind more faults).keeping es := by
  simp [afterToken, keeping, record, skip, List.append_assoc]

/-- The faults kept before stay in front of those met on the way to the next token, and make no other
difference. -/
theorem next_keeping (l : Lexer) (es : List LexError) : (l.keeping es).next = (l.next.1, l.next.2.keeping es) := by
  fun_induction next l with
  | case1 l hrest => exact next_of_nil hrest
  | case2 l c cs hrest more breaks fault hpiece l' width l'' hbreaks =>
    rw [next_of_break (l := l.keeping es) hrest hpiece hbreaks, afterGap_keeping]
    rfl
  | case3 l c cs hrest more breaks fault hpiece l' width l'' hbreaks ih =>
    rw [next_of_gap (l := l.keeping es) hrest hpiece (Bool.eq_false_iff.mpr hbreaks), afterGap_keeping]
    exact ih
  | case4 l c cs hrest kind more faults hpiece l' text =>
    have htext : text = if kind.keepsText then String.ofList (c :: cs.take more) else "" := by
      rw [← List.take_succ_cons, ← hrest]
      rfl
    rw [next_of_token (l := l.keeping es) hrest hpiece, afterToken_keeping, htext]
    rfl

theorem next_eq_takeErrors (l : Lexer) :
    l.next = (l.takeErrors.2.next.1, l.takeErrors.2.next.2.keeping l.errors) := by
  have hsame : l.takeErrors.2.keeping l.errors = l := by simp [takeErrors, keeping]
  rw [← next_keeping, hsame]

theorem tokenize_of_eof {l : Lexer} (h : l.next.1.kind = .eof) : l.tokenize = ([l.next.1], l.next.2.errors) := by
  rw [next_eq_takeErrors] at h ⊢
  rw [tokenize, lexemes_of_eof h]
  simp [nextLexeme, keeping]

theorem tokenize_of_ne_eof {l : Lexer} (h : l.next.1.kind ≠ .eof) :
    l.tokenize = (l.next.1 :: l.next.2.tokenize.1, l.next.2.tokenize.2) := by
  rw [next_eq_takeErrors] at h ⊢
  have hrest : (l.takeErrors.2.next.2.keeping l.errors).lexemes = l.takeErrors.2.next.2.lexemes :=
    lexemes_congr rfl
  rw [tokenize, lexemes_of_ne_eof h, tokenize, hrest]
  simp [nextLexeme, keeping]

/-- All tokens depend on the lexer by the next one and what is left after it. -/
theorem tokenize_congr {l l' : Lexer} (h : l.next = l'.next) : l.tokenize = l'.tokenize := by
  by_cases heof : l.next.1.kind = .eof
  · rw [tokenize_of_eof heof, tokenize_of_eof (l := l') (h ▸ heof), h]
  · rw [tokenize_of_ne_eof heof, tokenize_of_ne_eof (l := l') (h ▸ heof), h]

theorem tokenize_of_nil {l : Lexer} (hrest : l.rest = []) :
    l.tokenize =
      ((if l.pending then [⟨.semi, ⟨l.pos, l.pos⟩, ""⟩] else []) ++ [⟨.eof, ⟨l.pos, l.pos⟩, ""⟩], l.errors) := by
  have hnext := next_of_nil hrest
  cases hpending : l.pending with
  | false =>
    rw [tokenize_of_eof (by rw [hnext, hpending]; rfl), hnext, hpending]
    rfl
  | true =>
    have hlast := next_of_nil (l := { l with pending := false }) hrest
    rw [tokenize_of_ne_eof (by simp [hnext, hpending]), hnext, hpending,
      tokenize_of_eof (by rw [hlast]; rfl), hlast]
    rfl

theorem mem_tokenize_of_mem_errors {l : Lexer} {e : LexError} (h : e ∈ l.errors) : e ∈ l.tokenize.2 :=
  List.mem_append_left _ h

/-! ### Piece by piece -/

/-- The lexer has gone from `l` to `l'` over the characters `cs`, which come before those of `after`. -/
structure Advances (l : Lexer) (cs after : List Char) (l' : Lexer) : Prop where
  ne_nil : cs ≠ []
  rest : l.rest = cs ++ after
  base : l'.base = l.base
  offset : l'.offset = l.offset + utf8Length cs
  left : l'.rest = after

/-- What the lexer goes over is a gap. -/
structure PassesGap (l : Lexer) (cs after : List Char) (fault : Option LexicalFault) (l' : Lexer) : Prop
    extends Advances l cs after l' where
  harmless : fault = none → (∃ c ∈ blanks, cs = [c]) ∨ IsComment cs after
  pending : l'.pending = (l.pending && !cs.contains '\n')
  errors : l'.errors = l.errors ++ (fault.map fun f => ⟨⟨l.pos, l'.pos⟩, f.message⟩).toList
  tokenize : l.tokenize =
    ((if l.pending && cs.contains '\n' then [⟨.semi, ⟨l.pos, l'.pos⟩, "\n"⟩] else []) ++ l'.tokenize.1,
      l'.tokenize.2)
  piece : ∃ c more breaks, cs = c :: more ∧ Piece.first c (more ++ after) = .gap more.length breaks fault

/-- What the lexer goes over is a token that is written in the text. -/
structure ReadsToken (l : Lexer) (cs after : List Char) (t : Token) (l' : Lexer) : Prop
    extends Advances l cs after l' where
  kind_ne : t.kind ≠ .eof
  span : t.span = ⟨l.pos, l'.pos⟩
  text : t.text = if t.kind.keepsText then String.ofList cs else ""
  spelled : t.kind.isWordOrLiteral = true ∨ cs = t.kind.spelling.toList
  pending : l'.pending = t.kind.endsStatement
  errors : ∃ faults, l'.errors = (l.record faults).errors ∧ ∀ f ∈ faults, f.Within cs
  tokenize : l.tokenize = (t :: l'.tokenize.1, l'.tokenize.2)
  piece : ∃ c more faults, cs = c :: more ∧ Piece.first c (more ++ after) = .token t.kind more.length faults ∧
    l'.errors = (l.record faults).errors

section
variable {l l' : Lexer} {cs after : List Char}

theorem errors_eq_nil (h : l.tokenize.2 = []) : l.errors = [] :=
  (List.append_eq_nil_iff.mp h).1

theorem PassesGap.faultless {fault : Option LexicalFault} (h : PassesGap l cs after fault l')
    (hclean : l.tokenize.2 = []) : fault = none ∧ l'.tokenize.2 = [] := by
  rw [h.tokenize] at hclean
  have herrors := h.errors
  rw [errors_eq_nil hclean] at herrors
  have hfault := (List.append_eq_nil_iff.mp herrors.symm).2
  cases fault with
  | none => exact ⟨rfl, hclean⟩
  | some fault => cases hfault

theorem ReadsToken.faultless {t : Token} (h : ReadsToken l cs after t l') (hclean : l.tokenize.2 = []) :
    l'.tokenize.2 = [] ∧ ∃ c more, cs = c :: more ∧ Piece.first c (more ++ after) = .token t.kind more.length [] := by
  rw [h.tokenize] at hclean
  obtain ⟨c, more, faults, hcs, hpiece, herrors⟩ := h.piece
  rw [errors_eq_nil hclean, record] at herrors
  obtain rfl := List.map_eq_nil_iff.mp (List.append_eq_nil_iff.mp herrors.symm).2
  exact ⟨hclean, c, more, hcs, hpiece⟩

end

/-- The lexer skips the characters of a piece that it has found. -/
theorem advances_skip {l : Lexer} {c : Char} {cs : List Char} (hrest : l.rest = c :: cs) (more : Nat)
    (pending : Bool) (errors : List LexError) :
    Advances l (c :: cs.take more) (cs.drop more) { l.skip (more + 1) with pending, errors } where
  ne_nil := List.cons_ne_nil _ _
  rest := by rw [hrest, List.cons_append, List.take_append_drop]
  base := rfl
  offset := by
    show l.offset + utf8Length (l.rest.take (more + 1)) = _
    rw [hrest, List.take_succ_cons]
  left := by
    show l.rest.drop (more + 1) = _
    rw [hrest, List.drop_succ_cons]

/-- The fault of a gap is reported of the whole gap. -/
theorem errors_afterGap (l : Lexer) (more : Nat) (fault : Option LexicalFault) :
    (l.afterGap more fault).errors =
      l.errors ++ (fault.map fun f => ⟨⟨l.pos, (l.afterGap more fault).pos⟩, f.message⟩).toList := by
  have hwidth : l.offset + ((l.skip (more + 1)).offset - l.offset) = (l.skip (more + 1)).offset :=
    Nat.add_sub_cancel' (Nat.le_add_right _ _)
  cases fault with
  | none => rfl
  | some f =>
    show (l.record [⟨0, (l.skip (more + 1)).offset - l.offset, f⟩]).errors = _
    rw [record, List.map_singleton]
    dsimp only
    rw [hwidth]
    rfl

/-- A gap that breaks the line is a terminator if one is due, and is passed over otherwise. -/
theorem next_of_gapPiece {l : Lexer} {c : Char} {cs : List Char} {more : Nat} {breaks : Bool}
    {fault : Option LexicalFault} (hrest : l.rest = c :: cs) (hpiece : Piece.first c cs = .gap more breaks fault) :
    let l' : Lexer := { l.afterGap more fault with pending := l.pending && !breaks }
    l.next = if l.pending && breaks then (⟨.semi, ⟨l.pos, l'.pos⟩, "\n"⟩, l') else l'.next := by
  intro l'
  rw [Bool.and_comm]
  cases hbreak : breaks && l.pending with
  | true =>
    obtain ⟨hline, -⟩ := Bool.and_eq_true_iff.mp hbreak
    have hleft : l' = { l.afterGap more fault with pending := false } := by
      dsimp only [l']
      rw [hline, Bool.not_true, Bool.and_false]
    rw [if_pos rfl, next_of_break hrest hpiece hbreak, hleft]
    rfl
  | false =>
    have hpending : (l.pending && !breaks) = l.pending := by
      cases hp : l.pending with
      | false => rfl
      | true => simpa [hp] using hbreak
    have hleft : l' = l.afterGap more fault := by
      dsimp only [l']
      rw [hpending]
      rfl
    rw [if_neg Bool.false_ne_true, next_of_gap hrest hpiece hbreak, hleft]

/-- Where a gap comes first it is passed. -/
theorem passesGap_next {l : Lexer} {c : Char} {cs : List Char} {more : Nat} {breaks : Bool}
    {fault : Option LexicalFault} (hrest : l.rest = c :: cs)
    (hpiece : Piece.first c cs = .gap more breaks fault) :
    ∃ l', PassesGap l (c :: cs.take more) (cs.drop more) fault l' ∧
      l.next = if l.pending && (c :: cs.take more).contains '\n' then (⟨.semi, ⟨l.pos, l'.pos⟩, "\n"⟩, l')
        else l'.next := by
  have hfits := Piece.fits_first c cs
  rw [hpiece] at hfits
  cases hfits with
  | gap hmore hbreaks hfault =>
    subst hbreaks
    have hnext := next_of_gapPiece hrest hpiece
    refine ⟨_, ⟨advances_skip hrest more _ _, hfault, rfl, errors_afterGap l more fault, ?tokenize, ?piece⟩, hnext⟩
    case tokenize =>
      split at hnext
      · next hbreak =>
        rw [tokenize_of_ne_eof (by simp [hnext]), hnext, if_pos hbreak]
        rfl
      · next hbreak =>
        rw [tokenize_congr hnext, if_neg hbreak]
        rfl
    case piece =>
      refine ⟨c, cs.take more, (c :: cs.take more).contains '\n', rfl, ?_⟩
      rw [List.take_append_drop, List.length_take, Nat.min_eq_left hmore]
      exact hpiece

theorem passesGap_of_first {l : Lexer} {c : Char} {cs : List Char} {more : Nat} {breaks : Bool}
    {fault : Option LexicalFault} (hrest : l.rest = c :: cs)
    (hpiece : Piece.first c cs = .gap more breaks fault) :
    ∃ l', PassesGap l (c :: cs.take more) (cs.drop more) fault l' := by
  obtain ⟨l', hgap, -⟩ := passesGap_next hrest hpiece
  exact ⟨l', hgap⟩

theorem readsToken_next {l : Lexer} {c : Char} {cs : List Char} {kind : Kind} {more : Nat}
    {faults : List FaultAt} (hrest : l.rest = c :: cs) (hpiece : Piece.first c cs = .token kind more faults) :
    ∃ t l', ReadsToken l (c :: cs.take more) (cs.drop more) t l' ∧ l.next = (t, l') := by
  have hfits := Piece.fits_first c cs
  rw [hpiece] at hfits
  cases hfits with
  | token hmore hkind htext hfaults =>
    let l' : Lexer := l.afterToken kind more faults
    let t : Token :=
      ⟨kind, ⟨l.pos, l'.pos⟩, if kind.keepsText then String.ofList (c :: cs.take more) else ""⟩
    have hadvances : Advances l (c :: cs.take more) (cs.drop more) l' := advances_skip hrest more _ _
    have hnext : l.next = (t, l') := next_of_token hrest hpiece
    refine ⟨t, l', ⟨hadvances, hkind, rfl, rfl, htext, rfl, ⟨faults, rfl, hfaults⟩, ?_, ?_⟩, hnext⟩
    · rw [tokenize_of_ne_eof (by rw [hnext]; exact hkind), hnext]
    · refine ⟨c, cs.take more, faults, rfl, ?_, rfl⟩
      rw [List.take_append_drop, List.length_take, Nat.min_eq_left hmore]
      exact hpiece

theorem readsToken_of_first {l : Lexer} {c : Char} {cs : List Char} {kind : Kind} {more : Nat}
    {faults : List FaultAt} (hrest : l.rest = c :: cs) (hpiece : Piece.first c cs = .token kind more faults) :
    ∃ t l', ReadsToken l (c :: cs.take more) (cs.drop more) t l' := by
  obtain ⟨t, l', htoken, -⟩ := readsToken_next hrest hpiece
  exact ⟨t, l', htoken⟩

/-- What holds at the end of a text, and in front of a piece if it does after it, holds everywhere. The next token
in front of a piece is made of that piece, or is the next one after it. -/
theorem next_induction {motive : Lexer → Prop} (nil : ∀ l, l.rest = [] → motive l)
    (gap : ∀ l cs after fault l', PassesGap l cs after fault l' →
      (l.next = if l.pending && cs.contains '\n' then (⟨.semi, ⟨l.pos, l'.pos⟩, "\n"⟩, l') else l'.next) →
      motive l' → motive l)
    (token : ∀ l cs after t l', ReadsToken l cs after t l' → l.next = (t, l') → motive l' → motive l)
    (l : Lexer) : motive l := by
  have hshorter : ∀ {l l' : Lexer} {cs after}, Advances l cs after l' → l'.rest.length < l.rest.length := by
    intro l l' cs after h
    have := List.length_pos_iff.mpr h.ne_nil
    rw [h.left, h.rest, List.length_append]
    omega
  generalize hlength : l.rest.length = n
  induction n using Nat.strongRecOn generalizing l with
  | ind n ih =>
    cases hrest : l.rest with
    | nil => exact nil l hrest
    | cons c cs =>
      cases hpiece : Piece.first c cs with
      | gap more breaks fault =>
        obtain ⟨l', h, hnext⟩ := passesGap_next hrest hpiece
        exact gap l _ _ _ l' h hnext (ih _ (hlength ▸ hshorter h.toAdvances) l' rfl)
      | token kind more faults =>
        obtain ⟨t, l', h, hnext⟩ := readsToken_next hrest hpiece
        exact token l _ _ t l' h hnext (ih _ (hlength ▸ hshorter h.toAdvances) l' rfl)

theorem tokenize_induction {motive : Lexer → Prop} (nil : ∀ l, l.rest = [] → motive l)
    (gap : ∀ l cs after fault l', PassesGap l cs after fault l' → motive l' → motive l)
    (token : ∀ l cs after t l', ReadsToken l cs after t l' → motive l' → motive l) (l : Lexer) : motive l := by
  induction l using next_induction with
  | nil l hrest => exact nil l hrest
  | gap l cs after fault l' h _ ih => exact gap l cs after fault l' h ih
  | token l cs after t l' h _ ih => exact token l cs after t l' h ih

/-- The next token takes some of the text, if any is left. -/
theorem read_next (l : Lexer) :
    ∃ cs, l.rest = cs ++ l.next.2.rest ∧ l.next.2.offset = l.offset + utf8Length cs := by
  induction l using next_induction with
  | nil l hrest =>
    rw [next_of_nil hrest]
    exact ⟨[], rfl, rfl⟩
  | gap l cs after fault l' hgap hnext ih =>
    rw [hnext]
    split
    · exact ⟨cs, by rw [hgap.left, hgap.rest], hgap.offset⟩
    · obtain ⟨ds, hrest, hoffset⟩ := ih
      refine ⟨cs ++ ds, ?_, ?_⟩
      · rw [hgap.rest, ← hgap.left, hrest, List.append_assoc]
      · rw [hoffset, hgap.offset, utf8Length_append, Nat.add_assoc]
  | token l cs after t l' htoken hnext ih =>
    rw [hnext]
    exact ⟨cs, by rw [htoken.left, htoken.rest], htoken.offset⟩

/-- The next token ends where the lexer then stands. -/
theorem stop_next (l : Lexer) : l.next.1.span.stop = l.next.2.pos := by
  induction l using next_induction with
  | nil l hrest =>
    rw [next_of_nil hrest]
    rfl
  | gap l cs after fault l' hgap hnext ih =>
    rw [hnext]
    split
    · rfl
    · exact ih
  | token l cs after t l' htoken hnext ih =>
    rw [hnext]
    exact congrArg Span.stop htoken.span

end Lexer

end RoseLang
