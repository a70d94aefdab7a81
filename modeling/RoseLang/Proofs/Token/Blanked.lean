import RoseLang.Proofs.Token.Ahead
import RoseLang.Proofs.Token.Cover
import RoseLang.Proofs.Token.Lines

/-!
# Illegal characters are blanks

A character that belongs to no token parts the tokens around it as a space does, and leaves no trace but its error. With
as many spaces in its place as it has bytes, a text has the same tokens at the same places, and all its other errors.
-/

namespace RoseLang

open Text

/-- The error reports a character that belongs to no token. -/
def LexError.isIllegal (e : LexError) : Bool := "illegal character".toList.isPrefixOf e.message.toList

theorem LexicalFault.isIllegal_message {fault : LexicalFault} {sp : Span} :
    LexError.isIllegal ⟨sp, fault.message⟩ = true ↔ ∃ c, fault = .illegalCharacter c := by
  show "illegal character".toList.isPrefixOf fault.message.toList = true ↔ _
  cases fault with
  | illegalCharacter c =>
    let number := "illegal character U+" ++ hexUpper 4 c.toNat
    have hmessage : (illegalCharacter c).message =
        if isControl c then number else number ++ " '" ++ String.singleton c ++ "'" := rfl
    rw [hmessage]
    split <;> simp [number, List.isPrefixOf]
  | noDigits radix =>
    have hmessage : (noDigits radix).message = radix.name ++ " literal has no digits" := rfl
    rw [hmessage]
    cases radix <;> simp [Radix.name, List.isPrefixOf]
  | invalidDigit digit radix =>
    have hmessage : (invalidDigit digit radix).message =
        "invalid digit '" ++ String.singleton digit ++ "' in " ++ radix.name ++ " literal" := rfl
    rw [hmessage]
    simp [List.isPrefixOf]
  | doubleDot | openComment | emptyExponent | openLiteral | charCount | openEscape | invalidEscape =>
    exact iff_of_false (by decide) (by simp)

theorem LexicalFault.OfToken.isIllegal_message {fault : LexicalFault} (h : fault.OfToken) (sp : Span) :
    LexError.isIllegal ⟨sp, fault.message⟩ = false := by
  refine Bool.eq_false_iff.mpr fun hillegal => ?_
  obtain ⟨c, rfl⟩ := LexicalFault.isIllegal_message.mp hillegal
  exact h

/-- An error reports that the character at the offset belongs to no token. -/
def illegalAt (base : Pos) (es : List LexError) (offset : Nat) : Bool :=
  es.any fun e => e.isIllegal && e.span.start = base.advance offset

/-- The characters from the offset on, with as many spaces in place of each one that an error reports as belonging to
no token as it has bytes. -/
def blanked (base : Pos) (es : List LexError) : Nat → List Char → List Char
  | _, [] => []
  | offset, c :: cs =>
    (if illegalAt base es offset then List.replicate c.utf8Size ' ' else [c]) ++
      blanked base es (offset + c.utf8Size) cs

variable {base : Pos} {es : List LexError} {offset : Nat}

theorem blanked_append (cs ds : List Char) :
    blanked base es offset (cs ++ ds) = blanked base es offset cs ++ blanked base es (offset + utf8Length cs) ds := by
  induction cs generalizing offset with
  | nil => rfl
  | cons c cs ih => rw [List.cons_append, blanked, blanked, ih, utf8Length_cons, Nat.add_assoc, List.append_assoc]

theorem blanked_eq_self {cs : List Char}
    (h : ∀ i, offset ≤ i → i < offset + utf8Length cs → illegalAt base es i = false) :
    blanked base es offset cs = cs := by
  induction cs generalizing offset with
  | nil => rfl
  | cons c cs ih =>
    rw [utf8Length_cons] at h
    have hpos := c.utf8Size_pos
    have hfirst : illegalAt base es offset = false := h offset (Nat.le_refl _) (by omega)
    have hrest : blanked base es (offset + c.utf8Size) cs = cs := ih fun i hle hlt => h i (by omega) (by omega)
    rw [blanked, hfirst, hrest]
    rfl

theorem illegalAt_append (es es' : List LexError) :
    illegalAt base (es ++ es') offset = (illegalAt base es offset || illegalAt base es' offset) :=
  List.any_append

theorem replaces_blanked {cs : List Char} (h : ∀ c ∈ cs.head?, illegalAt base es offset = true → c ≠ '\n') :
    Replaces cs (blanked base es offset cs) := by
  cases cs with
  | nil => exact .nil
  | cons c cs =>
    rw [blanked]
    split
    · next hillegal =>
      obtain ⟨n, hn⟩ := Nat.exists_eq_succ_of_ne_zero (Nat.ne_of_gt c.utf8Size_pos)
      rw [hn, List.replicate_succ, List.cons_append]
      exact .blank (h c rfl hillegal) _ _
    · exact .same _ _ _

/-- A character that belongs to no token is a piece of its own. -/
theorem Piece.first_illegal {c d : Char} {cs : List Char} {more : Nat} {breaks : Bool}
    (h : first c cs = .gap more breaks (some (.illegalCharacter d))) : more = 0 ∧ c ≠ '\n' := by
  have hfirst := isFirst_first c cs
  generalize first c cs = p at h hfirst
  cases hfirst with
  | blockComment =>
    obtain ⟨-, -, hfault⟩ := gap.inj h
    split at hfault
    · cases hfault
    · cases hfault
  | illegal hc =>
    cases h
    exact ⟨rfl, hc.line⟩
  | _ => cases h

namespace Lexer

variable {source before cs after : List Char} {l l' u : Lexer}

/-- What is reported of the text before the lexer has been reported. -/
theorem At.illegalAt_tokenize (h : l.At base source before) (hoffset : offset < l.offset) :
    illegalAt base l.tokenize.2 offset = illegalAt base l.errors offset := by
  refine Bool.eq_iff_iff.mpr ⟨fun hillegal => ?_, fun hillegal => ?_⟩
  · obtain ⟨e, he, hstart⟩ := List.any_eq_true.mp hillegal
    refine List.any_eq_true.mpr ⟨e, (h.steps.errors e he).resolve_right fun hinside => ?_, hstart⟩
    have hle := hinside.1
    rw [of_decide_eq_true (Bool.and_eq_true_iff.mp hstart).2, h.index_pos, ← h.offset_eq, Pos.index_advance] at hle
    omega
  · obtain ⟨e, he, hstart⟩ := List.any_eq_true.mp hillegal
    exact List.any_eq_true.mpr ⟨e, mem_tokenize_of_mem_errors he, hstart⟩

theorem Advances.offset_lt (h : Advances l cs after u) : l.offset < u.offset := by
  have hpos := Nat.lt_of_lt_of_le (List.length_pos_iff.mpr h.ne_nil) (length_le_utf8Length cs)
  rw [h.offset]
  omega

/-- The lexer has read the characters `before`, and those reported so far as belonging to no token are among them. -/
structure Scanned (l : Lexer) (base : Pos) (source before : List Char) : Prop extends l.At base source before where
  behind : ∀ e ∈ l.errors, e.isIllegal = true → e.span.start.index < l.pos.index

/-! ### What is reported of a piece -/

namespace Scanned

variable (h : l.Scanned base source before)
include h

theorem illegalAt_eq_false (hle : l.offset ≤ offset) : illegalAt base l.errors offset = false := by
  refine Bool.eq_false_iff.mpr fun hillegal => ?_
  obtain ⟨e, he, hstart⟩ := List.any_eq_true.mp hillegal
  have hlt := h.behind e he (Bool.and_eq_true_iff.mp hstart).1
  rw [of_decide_eq_true (Bool.and_eq_true_iff.mp hstart).2, pos, h.base_eq, Pos.index_advance, Pos.index_advance] at hlt
  omega

theorem step (hadvances : Advances l cs after u)
    (herrors : ∀ e ∈ u.errors, e ∈ l.errors ∨ e.span.Inside l.pos.index u.pos.index) :
    u.Scanned base source (before ++ cs) := by
  refine ⟨h.toAt.advances hadvances, fun e he hillegal => ?_⟩
  rcases herrors e he with he | hinside
  · exact Nat.lt_trans (h.behind e he hillegal) (h.index_lt hadvances)
  · exact Nat.lt_of_lt_of_le hinside.2.1 hinside.2.2

theorem gap {fault : Option LexicalFault} (hgap : PassesGap l cs after fault u) :
    u.Scanned base source (before ++ cs) :=
  h.step hgap.toAdvances (hgap.inside h.toAt)

theorem token {t : Token} (htoken : ReadsToken l cs after t u) : u.Scanned base source (before ++ cs) :=
  h.step htoken.toAdvances (htoken.inside h.toAt)

/-- Of the characters of a gap the first one is reported as belonging to no token, if any. -/
theorem illegalAt_gap_iff {fault : Option LexicalFault} (hgap : PassesGap l cs after fault u) (hle : l.offset ≤ offset)
    (hlt : offset < u.offset) :
    illegalAt base l.tokenize.2 offset = true ↔ offset = l.offset ∧ ∃ c, fault = some (.illegalCharacter c) := by
  have hnext := (h.gap hgap).toAt
  have herrors : l.tokenize.2 = u.tokenize.2 := by rw [hgap.tokenize]
  rw [herrors, hnext.illegalAt_tokenize hlt, hgap.errors, illegalAt_append, h.illegalAt_eq_false hle, Bool.false_or]
  -- The whole text fits into the position space, so different offsets have different positions.
  have hhere : l.pos = base.advance offset ↔ offset = l.offset := by
    have hlast := hnext.index_le
    rw [hnext.index_pos, ← hnext.offset_eq] at hlast
    have hfits := h.fits
    rw [pos, h.base_eq, Pos.advance, Pos.advance, Pos.mk.injEq]
    omega
  cases fault with
  | none => simp [illegalAt]
  | some f =>
    rw [Option.map_some, Option.toList_some, illegalAt, List.any_cons, List.any_nil, Bool.or_false, Bool.and_eq_true,
      decide_eq_true_iff, hhere, LexicalFault.isIllegal_message, and_comm]
    simp

/-- No character of a token is reported as belonging to none. -/
theorem illegalAt_token {t : Token} (htoken : ReadsToken l cs after t u) (hle : l.offset ≤ offset)
    (hlt : offset < u.offset) : illegalAt base l.tokenize.2 offset = false := by
  have herrors : l.tokenize.2 = u.tokenize.2 := by rw [htoken.tokenize]
  obtain ⟨c, more, faults, -, hpiece, hfaults⟩ := htoken.piece
  rw [herrors, (h.token htoken).illegalAt_tokenize hlt, hfaults, record, illegalAt_append, h.illegalAt_eq_false hle,
    Bool.false_or, illegalAt, List.any_map, List.any_eq_false]
  intro f hf
  simp [((Piece.newline_notMem_token hpiece).2 f hf).isIllegal_message]

end Scanned

/-! ### The blanked text -/

/-- The characters left to read, with blanks in place of those that are going to be reported as belonging to no
token. -/
def blankedRest (l : Lexer) : List Char := blanked l.base l.tokenize.2 l.offset l.rest

/-- A character in place of which there are blanks is no line feed. -/
theorem Scanned.replaces_blankedRest (h : l.Scanned base source before) : Replaces l.rest l.blankedRest := by
  refine replaces_blanked fun c hc hillegal => ?_
  obtain ⟨cs, hrest⟩ := List.head?_eq_some_iff.mp hc
  rw [h.base_eq] at hillegal
  cases hpiece : Piece.first c cs with
  | gap more breaks fault =>
    obtain ⟨u, hgap⟩ := passesGap_of_first hrest hpiece
    obtain ⟨-, d, rfl⟩ := (h.illegalAt_gap_iff hgap (Nat.le_refl _) hgap.toAdvances.offset_lt).mp hillegal
    exact (Piece.first_illegal hpiece).2
  | token kind more faults =>
    obtain ⟨t, u, htoken⟩ := readsToken_of_first hrest hpiece
    rw [h.illegalAt_token htoken (Nat.le_refl _) htoken.toAdvances.offset_lt] at hillegal
    cases hillegal

/-- Characters that are not going to be reported stay as they are. -/
theorem Advances.blankedRest (h : Advances l cs after u) (herrors : l.tokenize.2 = u.tokenize.2)
    (hnone : ∀ i, l.offset ≤ i → i < u.offset → illegalAt l.base l.tokenize.2 i = false) :
    l.blankedRest = cs ++ u.blankedRest := by
  rw [h.offset] at hnone
  rw [Lexer.blankedRest, Lexer.blankedRest, h.rest, blanked_append, blanked_eq_self hnone, h.base, h.offset, h.left,
    herrors]

/-- Spaces are passed over one by one. -/
theorem tokenize_spaces {n : Nat} (hrest : l.rest = List.replicate n ' ' ++ after) :
    l.tokenize = { l with offset := l.offset + n, rest := after : Lexer }.tokenize := by
  induction n generalizing l with
  | zero =>
    rw [List.replicate_zero, List.nil_append] at hrest
    rw [← hrest, Nat.add_zero]
  | succ n ih =>
    rw [List.replicate_succ, List.cons_append] at hrest
    have hpiece : Piece.first ' ' (List.replicate n ' ' ++ after) = .gap 0 false none :=
      (Piece.IsFirst.blank (.inl rfl)).first_eq
    have hgap : l.afterGap 0 none = { l with offset := l.offset + 1, rest := List.replicate n ' ' ++ after } := by
      have hwidth : (' ' : Char).utf8Size = 1 := rfl
      simp [afterGap, skip, record, hrest, hwidth]
    rw [tokenize_congr (next_of_gap hrest hpiece rfl), hgap, ih rfl, Nat.add_assoc, Nat.add_comm 1]

/-- Both lexers have read the same number of bytes, and the second one is in front of what is left for the first one,
with blanks in it. -/
structure Blanks (l l' : Lexer) : Prop where
  base : l'.base = l.base
  offset : l'.offset = l.offset
  rest : l'.rest = l.blankedRest
  pending : l'.pending = l.pending
  errors : l'.errors = l.errors.filter fun e => !e.isIllegal

namespace Blanks

variable (h : Blanks l l')
include h

theorem pos : l'.pos = l.pos := by
  rw [Lexer.pos, Lexer.pos, h.base, h.offset]

/-- Both lexers go over the same characters. -/
theorem advances {u' : Lexer} (hadvances : Advances l cs after u) (hadvances' : Advances l' cs u.blankedRest u')
    (hpending : u'.pending = u.pending)
    (herrors : u'.pos = u.pos → u'.errors = u.errors.filter fun e => !e.isIllegal) : Blanks u u' := by
  have hbase : u'.base = u.base := by rw [hadvances'.base, hadvances.base, h.base]
  have hoffset : u'.offset = u.offset := by rw [hadvances'.offset, hadvances.offset, h.offset]
  exact ⟨hbase, hoffset, hadvances'.left, hpending, herrors (by rw [Lexer.pos, Lexer.pos, hbase, hoffset])⟩

/-- A piece that stays as it is. -/
theorem first {c : Char} {more : List Char} {p : Piece} (hadvances : Advances l (c :: more) after u)
    (hnext : u.Scanned base source (before ++ c :: more)) (herrors : l.tokenize.2 = u.tokenize.2)
    (hnone : ∀ i, l.offset ≤ i → i < u.offset → illegalAt l.base l.tokenize.2 i = false)
    (hpiece : Piece.first c (more ++ after) = p) (hmore : p.more = more.length) :
    l'.rest = c :: (more ++ u.blankedRest) ∧ Piece.first c (more ++ u.blankedRest) = p := by
  have hreplaces := hnext.replaces_blankedRest
  rw [hadvances.left] at hreplaces
  refine ⟨by rw [h.rest, hadvances.blankedRest herrors hnone, List.cons_append], ?_⟩
  rw [Piece.first_swap hreplaces (hpiece ▸ hmore), hpiece]

variable (hscanned : l.Scanned base source before)
include hscanned

theorem gap {fault : Option LexicalFault} (hgap : PassesGap l cs after fault u)
    (hfault : ∀ c, fault ≠ some (.illegalCharacter c)) :
    ∃ u', PassesGap l' cs u.blankedRest fault u' ∧ Blanks u u' := by
  have hnone : ∀ i, l.offset ≤ i → i < u.offset → illegalAt l.base l.tokenize.2 i = false := by
    intro i hle hlt
    rw [hscanned.base_eq]
    refine Bool.eq_false_iff.mpr fun hillegal => ?_
    obtain ⟨-, c, hc⟩ := (hscanned.illegalAt_gap_iff hgap hle hlt).mp hillegal
    exact hfault c hc
  obtain ⟨c, more, breaks, rfl, hpiece⟩ := hgap.piece
  obtain ⟨hrest, hpiece'⟩ :=
    h.first hgap.toAdvances (hscanned.gap hgap) (by rw [hgap.tokenize]) hnone hpiece rfl
  obtain ⟨u', hgap'⟩ := passesGap_of_first hrest hpiece'
  rw [List.take_left, List.drop_left] at hgap'
  have hpending : u'.pending = u.pending := by rw [hgap'.pending, hgap.pending, h.pending]
  refine ⟨u', hgap', h.advances hgap.toAdvances hgap'.toAdvances hpending fun hpos => ?_⟩
  rw [hgap'.errors, hgap.errors, h.errors, h.pos, hpos, List.filter_append]
  cases fault with
  | none => rfl
  | some f =>
    have hlegal : LexError.isIllegal ⟨⟨l.pos, u.pos⟩, f.message⟩ = false := by
      refine Bool.eq_false_iff.mpr fun hillegal => ?_
      obtain ⟨c, rfl⟩ := LexicalFault.isIllegal_message.mp hillegal
      exact hfault c rfl
    simp [hlegal]

theorem token {t : Token} (htoken : ReadsToken l cs after t u) :
    ∃ u', ReadsToken l' cs u.blankedRest t u' ∧ Blanks u u' := by
  have hnone : ∀ i, l.offset ≤ i → i < u.offset → illegalAt l.base l.tokenize.2 i = false := by
    intro i hle hlt
    rw [hscanned.base_eq]
    exact hscanned.illegalAt_token htoken hle hlt
  obtain ⟨c, more, faults, rfl, hpiece, herrors⟩ := htoken.piece
  obtain ⟨hrest, hpiece'⟩ :=
    h.first htoken.toAdvances (hscanned.token htoken) (by rw [htoken.tokenize]) hnone hpiece rfl
  obtain ⟨t', u', htoken'⟩ := readsToken_of_first hrest hpiece'
  rw [List.take_left, List.drop_left] at htoken'
  obtain ⟨c', more', faults', hcs, hpiece'', herrors'⟩ := htoken'.piece
  obtain ⟨rfl, rfl⟩ := List.cons.inj hcs
  rw [hpiece', Piece.token.injEq] at hpiece''
  obtain ⟨hkind, -, rfl⟩ := hpiece''
  have hpending : u'.pending = u.pending := by rw [htoken'.pending, htoken.pending, hkind]
  have hnext : Blanks u u' := by
    refine h.advances htoken.toAdvances htoken'.toAdvances hpending fun _ => ?_
    rw [herrors', herrors, record, record, List.filter_append, h.errors, h.base, h.offset]
    refine congrArg (l.errors.filter _ ++ ·) (List.filter_eq_self.mpr fun e he => ?_).symm
    obtain ⟨f, hf, rfl⟩ := List.mem_map.mp he
    rw [((Piece.newline_notMem_token hpiece).2 f hf).isIllegal_message]
    rfl
  have hspan : t'.span = t.span := by rw [htoken'.span, htoken.span, h.pos, hnext.pos]
  have htext : t'.text = t.text := by rw [htoken'.text, htoken.text, hkind]
  have hsame : t' = t := by
    cases t
    cases t'
    cases hkind
    cases hspan
    cases htext
    rfl
  exact ⟨u', hsame ▸ htoken', hnext⟩

/-- The blanks in place of a character that belongs to no token. -/
theorem illegal {c : Char} (hgap : PassesGap l cs after (some (.illegalCharacter c)) u) :
    '\n' ∉ cs ∧ ∃ u', l'.tokenize = u'.tokenize ∧ Blanks u u' := by
  obtain ⟨d, more, breaks, rfl, hpiece⟩ := hgap.piece
  obtain ⟨hmore, hline⟩ := Piece.first_illegal hpiece
  obtain rfl := List.length_eq_zero_iff.mp hmore
  have hwidth : u.offset = l.offset + d.utf8Size := hgap.offset
  have hillegal : illegalAt l.base l.tokenize.2 l.offset = true := by
    rw [hscanned.base_eq]
    exact (hscanned.illegalAt_gap_iff hgap (Nat.le_refl _) hgap.toAdvances.offset_lt).mpr ⟨rfl, c, rfl⟩
  have hrest : l'.rest = List.replicate d.utf8Size ' ' ++ u.blankedRest := by
    rw [h.rest, blankedRest, hgap.rest, List.singleton_append, blanked, if_pos hillegal, blankedRest, hgap.base, hwidth,
      hgap.left, hgap.tokenize]
  refine ⟨by simpa using hline.symm, _, tokenize_spaces hrest, ?_, ?_, rfl, ?_, ?_⟩
  · rw [hgap.base]
    exact h.base
  · rw [hwidth]
    exact congrArg (· + d.utf8Size) h.offset
  · rw [hgap.pending]
    simpa [hline.symm] using h.pending
  · have hreported : LexError.isIllegal ⟨⟨l.pos, u.pos⟩, (LexicalFault.illegalCharacter c).message⟩ = true :=
      LexicalFault.isIllegal_message.mpr ⟨c, rfl⟩
    rw [hgap.errors, List.filter_append]
    simpa [hreported] using h.errors

/-- The blanked text has the same tokens, and all errors but those for characters that belong to no token. -/
theorem tokenize_eq : l'.tokenize = (l.tokenize.1, l.tokenize.2.filter fun e => !e.isIllegal) := by
  induction l using tokenize_induction generalizing before l' with
  | nil l hrest =>
    have hrest' : l'.rest = [] := by
      rw [h.rest, blankedRest, hrest]
      rfl
    rw [tokenize_of_nil hrest, tokenize_of_nil hrest', h.pending, h.pos, h.errors]
  | gap l cs after fault u hgap ih =>
    by_cases hfault : ∃ c, fault = some (.illegalCharacter c)
    · -- One gap of the first text is as many gaps of the second one as there are spaces. None of them is a line end.
      obtain ⟨c, rfl⟩ := hfault
      obtain ⟨hline, u', htokenize, hnext⟩ := h.illegal hscanned hgap
      have hbreak : cs.contains '\n' = false := by simpa using hline
      rw [htokenize, hgap.tokenize, ih hnext (hscanned.gap hgap), hbreak, Bool.and_false]
      rfl
    · obtain ⟨u', hgap', hnext⟩ := h.gap hscanned hgap (not_exists.mp hfault)
      rw [hgap'.tokenize, hgap.tokenize, ih hnext (hscanned.gap hgap), h.pending, h.pos, hnext.pos]
  | token l cs after t u htoken ih =>
    obtain ⟨u', htoken', hnext⟩ := h.token hscanned htoken
    rw [htoken'.tokenize, htoken.tokenize, ih hnext (hscanned.token htoken)]

end Blanks

/-- A text with spaces in place of the characters that belong to no token, as many as their bytes, has the same tokens,
and all errors but those. -/
theorem tokenize_blanked (source : String) (base : Pos)
    (h : base.index + utf8Length source.toList ≤ Pos.last.index) :
    let read := (ofText source base).tokenize
    (ofText (String.ofList (blanked base read.2 0 source.toList)) base).tokenize =
      (read.1, read.2.filter fun e => !e.isIllegal) := by
  have hscanned : (ofText source base).Scanned base source.toList [] := ⟨at_ofText h, by simp [ofText]⟩
  exact Blanks.tokenize_eq ⟨rfl, rfl, String.toList_ofList, rfl, rfl⟩ hscanned

/-- The same character after a word and in a literal that is not closed. -/
theorem tokenize_blanked_literal :
    let source := "x€\"€"
    let read := (ofText source ⟨1⟩).tokenize
    1 + utf8Length source.toList ≤ Pos.last.index ∧
      blanked ⟨1⟩ read.2 0 source.toList = "x   \"€".toList ∧
      read.2.map LexError.message = ["illegal character U+20AC '€'", "literal not terminated"] ∧
      (ofText (String.ofList (blanked ⟨1⟩ read.2 0 source.toList)) ⟨1⟩).tokenize =
        (read.1, read.2.filter fun e => !e.isIllegal) := by
  have hfits : 1 + utf8Length "x€\"€".toList ≤ Pos.last.index := by decide +kernel
  exact ⟨hfits, by decide +kernel, by decide +kernel, tokenize_blanked "x€\"€" ⟨1⟩ hfits⟩

end Lexer

end RoseLang
