import RoseLang.Proofs.Source.LineMap
import RoseLang.Proofs.Token.Cover

/-!
# Where tokens lie

The tokens of a text that fits into the position space lie one after the other, and each of them ends where
the text ends that it is written as. `Runs` says so of a list of tokens from one place to another, `Placed` of
the tokens that are left of a text, its end included.
-/

namespace RoseLang

open Text

namespace Token

/-- What the token is written as, unless it stands for a line end or for the end of the text. -/
def written (t : Token) : String := if t.kind.isWordOrLiteral then t.text else t.kind.spelling

/-- The span of the token is that of its text. Nothing is said of the width of a terminator, which need not be
written. -/
structure Fills (t : Token) : Prop where
  le : t.pos.index ≤ t.span.stop.index
  lt : t.kind ≠ .semi → t.pos.index < t.span.stop.index
  stop : t.kind ≠ .semi → (t.pos.advance t.written.utf8ByteSize).index = t.span.stop.index

theorem IsSpelled.written {t : Token} {cs : List Char} (h : t.IsSpelled cs) (hsemi : t.kind ≠ .semi)
    (heof : t.kind ≠ .eof) : t.written.toList = cs := by
  have himplicit : t.isImplicitSemi = false := by simp [isImplicitSemi, hsemi]
  rw [Token.written]
  split
  · next hword => exact h.word hword
  · next hsign => exact h.sign (Bool.eq_false_iff.mpr hsign) heof himplicit

end Token

namespace Lexer

/-- A token that is written covers at least one byte. -/
theorem Steps.start_lt_stop {base : Pos} {source before : List Char} {l : Lexer}
    (h : Steps base source before l) :
    ∀ t ∈ l.tokenize.1, t.kind ≠ .semi → t.kind ≠ .eof → t.span.start.index < t.span.stop.index := by
  induction h with
  | @done before l h hrest =>
    intro t ht hsemi heof
    rw [tokenize_of_nil hrest] at ht
    rcases List.mem_append.mp ht with ht | ht
    · split at ht
      · obtain rfl := List.mem_singleton.mp ht
        exact absurd rfl hsemi
      · cases ht
    · obtain rfl := List.mem_singleton.mp ht
      exact absurd rfl heof
  | @step before cs after l l' ts h hadvances hadds herrors hsteps ih =>
    intro t ht hsemi heof
    rcases hadds.mem_iff.mp ht with ht | ht
    · rw [(hadds.forall_mem t ht).1]
      exact h.index_lt hadvances
    · exact ih t ht hsemi heof

theorem fills_tokenize {source : String} {base : Pos}
    (h : base.index + utf8Length source.toList ≤ Pos.last.index) {t : Token}
    (ht : t ∈ (ofText source base).tokenize.1) (heof : t.kind ≠ .eof) : t.Fills := by
  have haccount := (at_ofText h).accountFor rfl
  obtain ⟨-, hle, hlast⟩ := haccount.within t ht
  refine ⟨hle, fun hsemi => (at_ofText h).steps.start_lt_stop t ht hsemi heof, fun hsemi => ?_⟩
  obtain ⟨before, cs, hcovers, hspelled⟩ := haccount.spelled t ht
  have hstop : t.span.stop.index = t.pos.index + utf8Length cs := hcovers.stop
  rw [utf8ByteSize_eq, hspelled.written hsemi heof, Pos.index_advance, ← hstop]
  exact Nat.min_eq_left (Nat.le_trans hlast h)

end Lexer

/-! ### Tokens in a row -/

/-- The tokens lie one after the other from `lo` on, and the last one ends at `hi`. -/
def Runs : Nat → List Token → Nat → Prop
  | lo, [], hi => lo = hi
  | lo, t :: ts, hi => lo ≤ t.pos.index ∧ t.Fills ∧ Runs t.span.stop.index ts hi

namespace Runs

variable {lo hi : Nat} {t : Token} {ts us : List Token}

theorem append_iff : Runs lo (ts ++ us) hi ↔ ∃ mid, Runs lo ts mid ∧ Runs mid us hi := by
  induction ts generalizing lo with
  | nil => simp [Runs]
  | cons t ts ih =>
    rw [List.cons_append, Runs, ih]
    constructor
    · rintro ⟨hle, hfills, mid, hts, hus⟩
      exact ⟨mid, ⟨hle, hfills, hts⟩, hus⟩
    · rintro ⟨mid, ⟨hle, hfills, hts⟩, hus⟩
      exact ⟨hle, hfills, mid, hts, hus⟩

theorem le (h : Runs lo ts hi) : lo ≤ hi := by
  induction ts generalizing lo with
  | nil => exact Nat.le_of_eq h
  | cons t ts ih => exact Nat.le_trans h.1 (Nat.le_trans h.2.1.le (ih h.2.2))

/-- The tokens after the first one. -/
theorem tail (h : Runs lo (t :: ts) hi) : ∃ mid, lo ≤ mid ∧ Runs mid ts hi :=
  ⟨_, Nat.le_trans h.1 h.2.1.le, h.2.2⟩

/-- The tokens before the last one. -/
theorem init (h : Runs lo (ts ++ [t]) hi) : ∃ mid, mid ≤ hi ∧ Runs lo ts mid := by
  obtain ⟨mid, hts, ht⟩ := append_iff.mp h
  exact ⟨mid, ht.le, hts⟩

/-- Tokens of which each one ends before the next ones start. -/
theorem of_pairwise (hlo : ∀ t ∈ ts, lo ≤ t.pos.index) (hfills : ∀ t ∈ ts, t.Fills)
    (hordered : ts.Pairwise fun t u => t.span.stop.index ≤ u.span.start.index) : ∃ hi, Runs lo ts hi := by
  induction ts generalizing lo with
  | nil => exact ⟨lo, rfl⟩
  | cons t ts ih =>
    obtain ⟨hnext, hordered⟩ := List.pairwise_cons.mp hordered
    obtain ⟨hfill, hfills⟩ := List.forall_mem_cons.mp hfills
    obtain ⟨hi, hruns⟩ := ih hnext hfills hordered
    exact ⟨hi, hlo t List.mem_cons_self, hfill, hruns⟩

end Runs

/-- The tokens of a text before its end. -/
theorem Lexer.runs_tokenize {source : String} {base : Pos}
    (h : base.index + utf8Length source.toList ≤ Pos.last.index) :
    ∃ hi, Runs base.index (ofText source base).tokenize.1.dropLast hi := by
  have haccount := (at_ofText h).accountFor rfl
  obtain ⟨us, p, htokens, -, hus⟩ := haccount.ended
  have hordered := haccount.ordered
  have hmem : ∀ t ∈ us, t ∈ (ofText source base).tokenize.1 := fun t ht => htokens ▸ List.mem_append_left _ ht
  rw [htokens, List.dropLast_concat]
  rw [htokens] at hordered
  refine Runs.of_pairwise (fun t ht => (haccount.within t (hmem t ht)).1)
    (fun t ht => fills_tokenize h (hmem t ht) (hus t ht)) (List.pairwise_append.mp hordered).1

/-! ### The tokens that are left -/

/-- The span reads so in the source text. -/
def Span.Reads (base : Pos) (source : List Char) (sp : Span) (text : String) : Prop :=
  ∃ before, sp.Covers base source before text.toList

/-- Where that ends at the latest which comes before the token. What is missing at the end of a text, and has
to be somewhere, takes up the place behind that end. -/
def Token.edge (t : Token) : Nat := if t.kind = .eof then (t.pos.advance 1).index else t.pos.index

theorem Token.edge_of_ne_eof {t : Token} (h : t.kind ≠ .eof) : t.edge = t.pos.index := if_neg h

theorem Pos.le_index_advance {p : Pos} (h : p.index ≤ last.index) (n : Nat) : p.index ≤ (p.advance n).index := by
  rw [index_advance]
  exact Nat.le_min.mpr ⟨Nat.le_add_right _ _, h⟩

theorem Token.le_edge {t : Token} (h : t.pos.index ≤ Pos.last.index) : t.pos.index ≤ t.edge := by
  rw [edge]
  split
  · exact Pos.le_index_advance h 1
  · exact Nat.le_refl _

/-- One place after a token starts, the edge of no later token has been reached: a terminator without width is
followed by the end token only. -/
theorem Lexer.Steps.advance_le_edge {base : Pos} {source before : List Char} {l : Lexer}
    (h : Steps base source before l) : l.tokenize.1.Pairwise fun t u => (t.pos.advance 1).index ≤ u.edge := by
  induction h with
  | @done before l h hrest =>
    rw [tokenize_of_nil hrest]
    split
    · exact List.pairwise_pair.mpr (Nat.le_refl _)
    · exact List.pairwise_singleton _ _
  | @step before cs after l l' ts h hadvances hadds herrors hsteps ih =>
    have hlater := hsteps.le_start
    have hlast : ∀ t ∈ l'.tokenize.1, t.pos.index ≤ Pos.last.index := by
      intro t ht
      obtain ⟨before', cs', hcovers, -⟩ := hsteps.spelled t ht
      obtain ⟨after, hsource⟩ := hcovers.chars
      have hfits := h.fits
      rw [← hsource, List.append_assoc, utf8Length_append] at hfits
      have hstart : t.pos.index = base.index + utf8Length before' := hcovers.start
      omega
    rw [hadds.tokens, List.pairwise_append]
    refine ⟨?_, ih, fun t ht u hu => ?_⟩
    · have hle := hadds.length_le
      match ts, hle with
      | [], _ => exact .nil
      | [t], _ => exact List.pairwise_singleton _ _
    · have hstart : t.pos = l.pos := congrArg Span.start (hadds.forall_mem t ht).1
      calc (t.pos.advance 1).index
        _ ≤ l.pos.index + 1 := by rw [hstart, Pos.index_advance]; exact Nat.min_le_left _ _
        _ ≤ l'.pos.index := h.index_lt hadvances
        _ ≤ u.pos.index := hlater u hu
        _ ≤ u.edge := Token.le_edge (hlast u hu)

/-- What is known of the tokens that are left of a text. -/
structure Placed (base : Pos) (source : List Char) (ts : List Token) : Prop where
  ended : EndsOnce ts
  within : ∀ t ∈ ts, base.index ≤ t.pos.index ∧ t.pos.index ≤ base.index + utf8Length source
  fits : base.index + utf8Length source ≤ Pos.last.index
  ordered : ts.Pairwise fun t u => t.span.stop.index ≤ u.pos.index
  advance : ts.Pairwise fun t u => (t.pos.advance 1).index ≤ u.edge
  fills : ∀ t ∈ ts, t.kind ≠ .eof → t.Fills
  reads : ∀ t ∈ ts, t.kind.isWordOrLiteral = true → t.span.Reads base source t.text

namespace Placed

variable {base : Pos} {source : List Char} {ts us : List Token} {t u : Token}

theorem of_suffix (h : Placed base source ts) (hsuffix : us <:+ ts) (hne : us ≠ []) : Placed base source us where
  ended := h.ended.of_suffix hsuffix hne
  within t ht := h.within t (hsuffix.subset ht)
  fits := h.fits
  ordered := h.ordered.sublist hsuffix.sublist
  advance := h.advance.sublist hsuffix.sublist
  fills t ht := h.fills t (hsuffix.subset ht)
  reads t ht := h.reads t (hsuffix.subset ht)

theorem le_last (h : Placed base source ts) (ht : t ∈ ts) : t.pos.index ≤ Pos.last.index :=
  Nat.le_trans (h.within t ht).2 h.fits

theorem le_edge (h : Placed base source ts) (ht : t ∈ ts) : t.pos.index ≤ t.edge := Token.le_edge (h.le_last ht)

/-- A token after the first one. -/
theorem first_lt (h : Placed base source (t :: ts)) (hu : u ∈ ts) :
    t.kind ≠ .eof ∧ t.span.stop.index ≤ u.pos.index ∧ (t.pos.advance 1).index ≤ u.edge := by
  refine ⟨fun heof => ?_, (List.pairwise_cons.mp h.ordered).1 u hu, (List.pairwise_cons.mp h.advance).1 u hu⟩
  obtain ⟨ws, last, hts, -, hws⟩ := h.ended
  cases ws with
  | nil =>
    rw [List.nil_append, List.cons.injEq] at hts
    rw [hts.2] at hu
    cases hu
  | cons w ws =>
    rw [List.cons_append, List.cons.injEq] at hts
    exact hws w List.mem_cons_self (hts.1 ▸ heof)

/-- The text of a word or a literal has the span of the token. -/
theorem span_text (h : Placed base source ts) (ht : t ∈ ts) (hkind : t.kind.isWordOrLiteral = true) :
    t.span = ⟨t.pos, t.pos.advance t.text.utf8ByteSize⟩ := by
  have hne : t.kind ≠ .eof ∧ t.kind ≠ .semi := by
    constructor
    all_goals
      intro hsame
      rw [hsame] at hkind
      cases hkind
  have hwritten : t.written = t.text := if_pos hkind
  have hstop := (h.fills t ht hne.1).stop hne.2
  rw [hwritten] at hstop
  exact congrArg (fun index => Span.mk t.pos ⟨index⟩) hstop.symm

end Placed

theorem Lexer.placed_tokenize {source : String} {base : Pos}
    (h : base.index + utf8Length source.toList ≤ Pos.last.index) :
    Placed base source.toList (ofText source base).tokenize.1 := by
  have haccount := (at_ofText h).accountFor rfl
  have hended : EndsOnce (ofText source base).tokenize.1 := (ofText source base).endsOnce_lexemes
  refine ⟨hended, fun t ht => ?_, h, haccount.ordered, (at_ofText h).steps.advance_le_edge,
    fun t ht => fills_tokenize h ht, fun t ht hkind => ?_⟩
  · obtain ⟨hstart, hle, hstop⟩ := haccount.within t ht
    exact ⟨hstart, Nat.le_trans hle hstop⟩
  · obtain ⟨before, cs, hcovers, hspelled⟩ := haccount.spelled t ht
    exact ⟨before, (hspelled.word hkind).symm ▸ hcovers⟩

end RoseLang
