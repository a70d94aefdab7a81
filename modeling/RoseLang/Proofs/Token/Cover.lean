import RoseLang.Proofs.Token.Tokenize

/-!
# Tokens account for their text

Every byte of a text lies in a token, in a blank or a comment between tokens, or in what a reported fault
covers. Spans never overlap, never cut a character, and hold what their tokens are spelled by.
-/

namespace RoseLang

open Text

/-- The span covers the characters `cs` of a source text, which come after those of `before`. -/
structure Span.Covers (sp : Span) (base : Pos) (source before cs : List Char) : Prop where
  chars : before ++ cs <+: source
  start : sp.start.index = base.index + utf8Length before
  stop : sp.stop.index = sp.start.index + utf8Length cs

/-- The byte at the index is one of those that the span covers. -/
def Span.Holds (sp : Span) (index : Nat) : Prop := sp.start.index ≤ index ∧ index < sp.stop.index

/-- The span covers something, and nothing before `start` or from `stop` on. -/
def Span.Inside (sp : Span) (start stop : Nat) : Prop :=
  start ≤ sp.start.index ∧ sp.start.index < sp.stop.index ∧ sp.stop.index ≤ stop

theorem Span.Inside.mono {sp : Span} {start stop start' stop' : Nat} (h : sp.Inside start stop)
    (hstart : start' ≤ start) (hstop : stop ≤ stop') : sp.Inside start' stop' :=
  ⟨Nat.le_trans hstart h.1, h.2.1, Nat.le_trans h.2.2 hstop⟩

/-- The token is written as `cs`. A token for a line end or the end of the text is not written at all. -/
structure Token.IsSpelled (t : Token) (cs : List Char) : Prop where
  word : t.kind.isWordOrLiteral = true → t.text.toList = cs
  sign : t.kind.isWordOrLiteral = false → t.kind ≠ .eof → t.isImplicitSemi = false → t.kind.spelling.toList = cs

theorem Token.isSpelled_of_unwritten {t : Token} {cs : List Char}
    (h : t.kind = .eof ∨ t.isImplicitSemi = true) : t.IsSpelled cs := by
  rcases h with heof | hsemi
  · refine ⟨fun hword => ?_, fun _ hne _ => absurd heof hne⟩
    rw [heof] at hword
    cases hword
  · have hkind : t.kind = .semi := by
      rw [isImplicitSemi, Bool.and_eq_true] at hsemi
      exact of_decide_eq_true hsemi.1
    refine ⟨fun hword => ?_, fun _ _ hne => ?_⟩
    · rw [hkind] at hword
      cases hword
    · rw [hsemi] at hne
      cases hne

/-- The characters `cs` after those of `before` are a blank or a comment, and no token reaches into it. -/
structure Passed (base : Pos) (source : List Char) (ts : List Token) (before cs : List Char) : Prop where
  harmless : ∃ after, source = before ++ cs ++ after ∧ ((∃ c ∈ blanks, cs = [c]) ∨ IsComment cs after)
  apart : ∀ t ∈ ts, t.span.stop.index ≤ base.index + utf8Length before ∨
    base.index + utf8Length (before ++ cs) ≤ t.span.start.index

/-- The tokens and faults account for every byte of the text. -/
structure AccountFor (base : Pos) (source : List Char) (ts : List Token) (es : List LexError) : Prop where
  within : ∀ t ∈ ts, base.index ≤ t.span.start.index ∧ t.span.start.index ≤ t.span.stop.index ∧
    t.span.stop.index ≤ base.index + utf8Length source
  ordered : ts.Pairwise fun t u => t.span.stop.index ≤ u.span.start.index
  spelled : ∀ t ∈ ts, ∃ before cs, t.span.Covers base source before cs ∧ t.IsSpelled cs
  ended : ∃ us p, ts = us ++ [⟨.eof, ⟨p, p⟩, ""⟩] ∧ p.index = base.index + utf8Length source ∧
    ∀ u ∈ us, u.kind ≠ .eof
  errors : ∀ e ∈ es, e.span.Inside base.index (base.index + utf8Length source)
  bytes : ∀ index, base.index ≤ index → index < base.index + utf8Length source →
    (∃ t ∈ ts, t.span.Holds index) ∨ (∃ e ∈ es, e.span.Holds index) ∨
      ∃ before cs, Passed base source ts before cs ∧ base.index + utf8Length before ≤ index ∧
        index < base.index + utf8Length (before ++ cs)

namespace Lexer

/-- The lexer has read the characters `before` of a source text that fits into the position space. -/
structure At (l : Lexer) (base : Pos) (source before : List Char) : Prop where
  base_eq : l.base = base
  source_eq : source = before ++ l.rest
  offset_eq : l.offset = utf8Length before
  fits : base.index + utf8Length source ≤ Pos.last.index

variable {base : Pos} {source before cs after : List Char} {l l' : Lexer}

theorem At.index_advance (h : l.At base source before) {n : Nat} (hn : n ≤ utf8Length source) :
    (l.base.advance n).index = base.index + n := by
  have hfits := h.fits
  rw [h.base_eq, Pos.index_advance, Nat.min_eq_left]
  exact Nat.le_trans (Nat.add_le_add_left hn _) hfits

theorem At.index_pos (h : l.At base source before) : l.pos.index = base.index + utf8Length before := by
  rw [pos, h.index_advance, h.offset_eq]
  rw [h.offset_eq, h.source_eq, utf8Length_append]
  exact Nat.le_add_right _ _

theorem At.advances (h : l.At base source before) (hadvances : Advances l cs after l') :
    l'.At base source (before ++ cs) where
  base_eq := hadvances.base.trans h.base_eq
  source_eq := by rw [h.source_eq, hadvances.rest, hadvances.left, List.append_assoc]
  offset_eq := by rw [hadvances.offset, h.offset_eq, utf8Length_append]
  fits := h.fits

theorem At.index_le (h : l.At base source before) : l.pos.index ≤ base.index + utf8Length source := by
  rw [h.index_pos, h.source_eq, utf8Length_append]
  omega

theorem At.covers (h : l.At base source before) (hadvances : Advances l cs after l') :
    Span.Covers ⟨l.pos, l'.pos⟩ base source before cs where
  chars := by rw [h.source_eq, hadvances.rest, ← List.append_assoc]; exact List.prefix_append _ _
  start := h.index_pos
  stop := by rw [(h.advances hadvances).index_pos, h.index_pos, utf8Length_append, Nat.add_assoc]

theorem At.index_lt (h : l.At base source before) (hadvances : Advances l cs after l') :
    l.pos.index < l'.pos.index := by
  have hstop := (h.covers hadvances).stop
  have hlength := length_le_utf8Length cs
  have hpos := List.length_pos_iff.mpr hadvances.ne_nil
  dsimp only at hstop
  omega

theorem At.covers_nothing (h : l.At base source before) : Span.Covers ⟨l.pos, l.pos⟩ base source before [] where
  chars := by rw [h.source_eq, List.append_nil]; exact List.prefix_append _ _
  start := h.index_pos
  stop := rfl

/-! ### Tokens -/

/-- The tokens `ts`, one at most, are those that the lexer adds while it goes over `cs` to `l'`. -/
structure Adds (l : Lexer) (cs : List Char) (ts : List Token) (l' : Lexer) : Prop where
  tokens : l.tokenize.1 = ts ++ l'.tokenize.1
  errors : l.tokenize.2 = l'.tokenize.2
  length_le : ts.length ≤ 1
  forall_mem : ∀ t ∈ ts, t.span = ⟨l.pos, l'.pos⟩ ∧ t.kind ≠ .eof ∧ t.IsSpelled cs

theorem Adds.mem_iff {ts : List Token} {t : Token} (h : Adds l cs ts l') :
    t ∈ l.tokenize.1 ↔ t ∈ ts ∨ t ∈ l'.tokenize.1 := by
  rw [h.tokens, List.mem_append]

theorem PassesGap.adds {fault : Option LexicalFault} (h : PassesGap l cs after fault l') :
    ∃ ts, Adds l cs ts l' := by
  have htokens := congrArg Prod.fst h.tokenize
  have herrors : l.tokenize.2 = l'.tokenize.2 := (congrArg Prod.snd h.tokenize :)
  cases hbreak : l.pending && cs.contains '\n' with
  | true =>
    rw [hbreak] at htokens
    refine ⟨_, htokens, herrors, Nat.le_refl _, ?_⟩
    intro t ht
    obtain rfl := List.mem_singleton.mp ht
    exact ⟨rfl, by simp, Token.isSpelled_of_unwritten (.inr rfl)⟩
  | false =>
    rw [hbreak] at htokens
    exact ⟨[], htokens, herrors, Nat.zero_le _, by simp⟩

theorem ReadsToken.isSpelled {t : Token} (h : ReadsToken l cs after t l') : t.IsSpelled cs := by
  refine ⟨fun hword => ?_, fun hsign _ _ => ?_⟩
  · have hkeeps : t.kind.keepsText = true := by
      show (t.kind.isWordOrLiteral || decide (t.kind = .semi)) = true
      rw [hword, Bool.true_or]
    rw [h.text, if_pos hkeeps, String.toList_ofList]
  · rcases h.spelled with hword | hspelled
    · rw [hsign] at hword
      cases hword
    · exact hspelled.symm

theorem ReadsToken.adds {t : Token} (h : ReadsToken l cs after t l') : Adds l cs [t] l' where
  tokens := (congrArg Prod.fst h.tokenize :)
  errors := (congrArg Prod.snd h.tokenize :)
  length_le := Nat.le_refl _
  forall_mem u hu := by
    obtain rfl := List.mem_singleton.mp hu
    exact ⟨h.span, h.kind_ne, h.isSpelled⟩

/-- The faults of a piece lie within its characters. -/
theorem At.record (h : l.At base source before) (hadvances : Advances l cs after l') {faults : List FaultAt}
    (hfaults : ∀ f ∈ faults, f.Within cs) {e : LexError} (he : e ∈ (l.record faults).errors) :
    e ∈ l.errors ∨ e.span.Inside l.pos.index l'.pos.index := by
  have hnext := (h.advances hadvances).index_pos
  have hsource : source = before ++ cs ++ after := by rw [h.source_eq, hadvances.rest, List.append_assoc]
  rcases List.mem_append.mp he with he | he
  · exact .inl he
  · obtain ⟨f, hf, rfl⟩ := List.mem_map.mp he
    obtain ⟨hlt, hle⟩ := hfaults f hf
    have hstop : l.offset + f.stop ≤ utf8Length source := by
      rw [hsource, utf8Length_append, utf8Length_append, h.offset_eq]
      omega
    rw [utf8Length_append] at hnext
    right
    rw [Span.Inside, h.index_advance hstop, h.index_advance (by omega), h.index_pos, h.offset_eq, hnext]
    omega

theorem PassesGap.inside {fault : Option LexicalFault} (hgap : PassesGap l cs after fault l')
    (h : l.At base source before) : ∀ e ∈ l'.errors, e ∈ l.errors ∨ e.span.Inside l.pos.index l'.pos.index := by
  intro e he
  rw [hgap.errors] at he
  rcases List.mem_append.mp he with he | he
  · exact .inl he
  · obtain ⟨f, -, rfl⟩ := Option.map_eq_some_iff.mp (Option.mem_toList.mp he)
    exact .inr ⟨Nat.le_refl _, h.index_lt hgap.toAdvances, Nat.le_refl _⟩

theorem ReadsToken.inside {t : Token} (htoken : ReadsToken l cs after t l') (h : l.At base source before) :
    ∀ e ∈ l'.errors, e ∈ l.errors ∨ e.span.Inside l.pos.index l'.pos.index := by
  obtain ⟨faults, herrors, hfaults⟩ := htoken.errors
  exact fun e he => h.record htoken.toAdvances hfaults (herrors ▸ he)

/-- A text is read step by step to its end. For most of what is said of tokens and faults, gaps and tokens
are steps alike. -/
inductive Steps (base : Pos) (source : List Char) : List Char → Lexer → Prop where
  | done {before : List Char} {l : Lexer} (h : l.At base source before) (hrest : l.rest = []) :
      Steps base source before l
  | step {before cs after : List Char} {l l' : Lexer} {ts : List Token} (h : l.At base source before)
      (hadvances : Advances l cs after l') (hadds : Adds l cs ts l')
      (herrors : ∀ e ∈ l'.errors, e ∈ l.errors ∨ e.span.Inside l.pos.index l'.pos.index)
      (hsteps : Steps base source (before ++ cs) l') : Steps base source before l

theorem At.steps (h : l.At base source before) : Steps base source before l := by
  induction l using tokenize_induction generalizing before with
  | nil l hrest => exact .done h hrest
  | gap l cs after fault l' hgap ih =>
    obtain ⟨ts, hadds⟩ := hgap.adds
    exact .step h hgap.toAdvances hadds (hgap.inside h) (ih (h.advances hgap.toAdvances))
  | token l cs after t l' htoken ih =>
    exact .step h htoken.toAdvances htoken.adds (htoken.inside h) (ih (h.advances htoken.toAdvances))

theorem span_of_mem_tokenize_nil (hrest : l.rest = []) :
    ∀ t ∈ l.tokenize.1, t.span = ⟨l.pos, l.pos⟩ ∧ t.IsSpelled [] := by
  rw [tokenize_of_nil hrest]
  intro t ht
  rcases List.mem_append.mp ht with ht | ht
  · split at ht
    · obtain rfl := List.mem_singleton.mp ht
      exact ⟨rfl, Token.isSpelled_of_unwritten (.inr rfl)⟩
    · cases ht
  · obtain rfl := List.mem_singleton.mp ht
    exact ⟨rfl, Token.isSpelled_of_unwritten (.inl rfl)⟩

theorem Steps.le_start (h : Steps base source before l) :
    ∀ t ∈ l.tokenize.1, l.pos.index ≤ t.span.start.index := by
  induction h with
  | @done before l h hrest =>
    intro t ht
    exact Nat.le_of_eq (by rw [(span_of_mem_tokenize_nil hrest t ht).1])
  | @step before cs after l l' ts h hadvances hadds herrors hsteps ih =>
    intro t ht
    rcases hadds.mem_iff.mp ht with ht | ht
    · exact Nat.le_of_eq (by rw [(hadds.forall_mem t ht).1])
    · exact Nat.le_trans (Nat.le_of_lt (h.index_lt hadvances)) (ih t ht)

theorem Steps.ordered (h : Steps base source before l) :
    l.tokenize.1.Pairwise fun t u => t.span.stop.index ≤ u.span.start.index := by
  induction h with
  | @done before l h hrest =>
    refine List.pairwise_of_forall_mem_list fun t ht u hu => ?_
    have ht := (span_of_mem_tokenize_nil hrest t ht).1
    have hu := (span_of_mem_tokenize_nil hrest u hu).1
    exact Nat.le_of_eq (by rw [ht, hu])
  | @step before cs after l l' ts h hadvances hadds herrors hsteps ih =>
    have hlater := hsteps.le_start
    rw [hadds.tokens, List.pairwise_append]
    refine ⟨?_, ih, fun t ht u hu => ?_⟩
    · have hle := hadds.length_le
      match ts, hle with
      | [], _ => exact .nil
      | [t], _ => exact List.pairwise_singleton _ _
    · rw [(hadds.forall_mem t ht).1]
      exact hlater u hu

theorem Steps.spelled (h : Steps base source before l) :
    ∀ t ∈ l.tokenize.1, ∃ before cs, t.span.Covers base source before cs ∧ t.IsSpelled cs := by
  induction h with
  | @done before l h hrest =>
    intro t ht
    obtain ⟨hspan, hspelled⟩ := span_of_mem_tokenize_nil hrest t ht
    exact ⟨before, [], hspan ▸ h.covers_nothing, hspelled⟩
  | @step before cs after l l' ts h hadvances hadds herrors hsteps ih =>
    intro t ht
    rcases hadds.mem_iff.mp ht with ht | ht
    · obtain ⟨hspan, -, hspelled⟩ := hadds.forall_mem t ht
      exact ⟨before, cs, hspan ▸ h.covers hadvances, hspelled⟩
    · exact ih t ht

theorem Steps.ended (h : Steps base source before l) :
    ∃ us p, l.tokenize.1 = us ++ [⟨.eof, ⟨p, p⟩, ""⟩] ∧ p.index = base.index + utf8Length source ∧
      ∀ u ∈ us, u.kind ≠ .eof := by
  induction h with
  | @done before l h hrest =>
    refine ⟨_, l.pos, congrArg Prod.fst (tokenize_of_nil hrest), ?_, ?_⟩
    · rw [h.index_pos, h.source_eq, hrest, List.append_nil]
    · intro u hu
      split at hu
      · obtain rfl := List.mem_singleton.mp hu
        simp
      · cases hu
  | @step before cs after l l' ts h hadvances hadds herrors hsteps ih =>
    obtain ⟨us, p, htokens, hp, hus⟩ := ih
    refine ⟨ts ++ us, p, by rw [hadds.tokens, htokens, List.append_assoc], hp, fun u hu => ?_⟩
    rcases List.mem_append.mp hu with hu | hu
    · exact (hadds.forall_mem u hu).2.1
    · exact hus u hu

theorem Steps.errors (h : Steps base source before l) :
    ∀ e ∈ l.tokenize.2, e ∈ l.errors ∨ e.span.Inside l.pos.index (base.index + utf8Length source) := by
  induction h with
  | @done before l h hrest =>
    intro e he
    rw [tokenize_of_nil hrest] at he
    exact .inl he
  | @step before cs after l l' ts h hadvances hadds herrors hsteps ih =>
    have hlt := h.index_lt hadvances
    have hle := (h.advances hadvances).index_le
    intro e he
    rw [hadds.errors] at he
    rcases ih e he with he | hinside
    · exact (herrors e he).imp_right fun hinside => hinside.mono (Nat.le_refl _) hle
    · exact .inr (hinside.mono (Nat.le_of_lt hlt) (Nat.le_refl _))

/-! ### Bytes -/

/-- From the lexer `l` on, the byte at the index is accounted for. -/
def Accounts (base : Pos) (source : List Char) (l : Lexer) (index : Nat) : Prop :=
  (∃ t ∈ l.tokenize.1, t.span.Holds index) ∨ (∃ e ∈ l.tokenize.2, e.span.Holds index) ∨
    ∃ before cs, l.pos.index ≤ base.index + utf8Length before ∧ Passed base source l.tokenize.1 before cs ∧
      base.index + utf8Length before ≤ index ∧ index < base.index + utf8Length (before ++ cs)

/-- What is accounted for after a step is so before it. -/
theorem Accounts.step {ts : List Token} (h : l.At base source before) (hadvances : Advances l cs after l')
    (hadds : Adds l cs ts l') {index : Nat} (haccounts : Accounts base source l' index) :
    Accounts base source l index := by
  rcases haccounts with ⟨t, ht, hholds⟩ | ⟨e, he, hholds⟩ | ⟨before', cs', hle, ⟨hharmless, hapart⟩, hindex⟩
  · exact .inl ⟨t, hadds.mem_iff.mpr (.inr ht), hholds⟩
  · exact .inr (.inl ⟨e, hadds.errors ▸ he, hholds⟩)
  · have hlater := Nat.le_trans (Nat.le_of_lt (h.index_lt hadvances)) hle
    refine .inr (.inr ⟨before', cs', hlater, ⟨hharmless, fun t ht => ?_⟩, hindex⟩)
    rcases hadds.mem_iff.mp ht with ht | ht
    · rw [(hadds.forall_mem t ht).1]
      exact .inl hle
    · exact hapart t ht

theorem At.accounts (h : l.At base source before) {index : Nat} (hstart : l.pos.index ≤ index)
    (hstop : index < base.index + utf8Length source) : Accounts base source l index := by
  induction l using tokenize_induction generalizing before with
  | nil l hrest =>
    rw [h.index_pos] at hstart
    rw [h.source_eq, hrest, List.append_nil] at hstop
    omega
  | gap l cs after fault l' hgap ih =>
    have hnext := h.advances hgap.toAdvances
    obtain ⟨ts, hadds⟩ := hgap.adds
    by_cases hlater : l'.pos.index ≤ index
    · exact (ih hnext hlater).step h hgap.toAdvances hadds
    · have hholds : Span.Holds ⟨l.pos, l'.pos⟩ index := ⟨hstart, Nat.lt_of_not_le hlater⟩
      cases ts with
      | cons t ts =>
        have hspan := (hadds.forall_mem t List.mem_cons_self).1
        exact .inl ⟨t, hadds.mem_iff.mpr (.inl List.mem_cons_self), hspan ▸ hholds⟩
      | nil =>
        cases fault with
        | some f =>
          have hmem : ⟨⟨l.pos, l'.pos⟩, f.message⟩ ∈ l'.errors := by simp [hgap.errors]
          exact .inr (.inl ⟨_, hadds.errors ▸ mem_tokenize_of_mem_errors hmem, hholds⟩)
        | none =>
          have hsource : source = before ++ cs ++ after := by
            rw [h.source_eq, hgap.rest, List.append_assoc]
          have hindex := hnext.index_pos
          have hpassed : Passed base source l.tokenize.1 before cs := by
            refine ⟨⟨after, hsource, hgap.harmless rfl⟩, fun t ht => .inr ?_⟩
            have hlast := (hadds.mem_iff.mp ht).resolve_left List.not_mem_nil
            exact hindex ▸ hnext.steps.le_start t hlast
          refine .inr (.inr ⟨before, cs, Nat.le_of_eq h.index_pos, hpassed, ?_, ?_⟩)
          · exact h.index_pos ▸ hstart
          · exact hindex ▸ hholds.2
  | token l cs after t l' htoken ih =>
    by_cases hlater : l'.pos.index ≤ index
    · exact (ih (h.advances htoken.toAdvances) hlater).step h htoken.toAdvances htoken.adds
    · refine .inl ⟨t, htoken.adds.mem_iff.mpr (.inl List.mem_cons_self), ?_⟩
      rw [htoken.span]
      exact ⟨hstart, Nat.lt_of_not_le hlater⟩

theorem at_ofText {source : String} {base : Pos} (h : base.index + utf8Length source.toList ≤ Pos.last.index) :
    (ofText source base).At base source.toList [] :=
  ⟨rfl, rfl, rfl, h⟩

/-- A lexer that starts without faults accounts for every byte of its text. -/
theorem At.accountFor (h : l.At base source []) (hclean : l.errors = []) :
    AccountFor base source l.tokenize.1 l.tokenize.2 := by
  have hpos : l.pos.index = base.index := h.index_pos
  have hspelled := h.steps.spelled
  refine ⟨fun t ht => ?_, h.steps.ordered, hspelled, h.steps.ended, fun e he => ?_, ?_⟩
  · obtain ⟨before, cs, hcovers, -⟩ := hspelled t ht
    have hlength : utf8Length (before ++ cs) ≤ utf8Length source := by
      obtain ⟨after, hafter⟩ := hcovers.chars
      rw [← hafter, utf8Length_append _ after]
      exact Nat.le_add_right _ _
    rw [hcovers.stop, hcovers.start]
    rw [utf8Length_append] at hlength
    omega
  · rcases h.steps.errors e he with hmem | hinside
    · rw [hclean] at hmem
      cases hmem
    · exact hpos ▸ hinside
  · intro index hstart hstop
    rcases h.accounts (hpos ▸ hstart) hstop with htoken | herror | ⟨before, cs, -, hpassed, hindex⟩
    · exact .inl htoken
    · exact .inr (.inl herror)
    · exact .inr (.inr ⟨before, cs, hpassed, hindex⟩)

/-- The lexer accounts for every byte of a text that fits into the position space. -/
theorem tokenize_accountFor (source : String) (base : Pos)
    (h : base.index + utf8Length source.toList ≤ Pos.last.index) :
    AccountFor base source.toList (ofText source base).tokenize.1 (ofText source base).tokenize.2 :=
  (at_ofText h).accountFor rfl

/-- A letter of two bytes, a comment and a character that belongs to no token. -/
theorem tokenize_accountFor_comment :
    let l := ofText "é /* x */ $" ⟨1⟩
    1 + utf8Length "é /* x */ $".toList ≤ Pos.last.index ∧
      l.tokenize.1.map (fun t => (t.kind, t.span.start.index, t.span.stop.index)) =
        [(.ident, 1, 3), (.semi, 13, 13), (.eof, 13, 13)] ∧
      l.tokenize.2.map (fun e => (e.span.start.index, e.span.stop.index)) = [(12, 13)] ∧
      AccountFor ⟨1⟩ "é /* x */ $".toList l.tokenize.1 l.tokenize.2 := by
  have hfits : 1 + utf8Length "é /* x */ $".toList ≤ Pos.last.index := by decide +kernel
  exact ⟨hfits, by decide +kernel, by decide +kernel, tokenize_accountFor _ ⟨1⟩ hfits⟩

end Lexer

end RoseLang
