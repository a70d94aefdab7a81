import RoseLang.Proofs.Token.Cover

/-!
# Where terminators stand that nobody wrote

Between two written tokens there is such a terminator if the first of them may end a statement and the gap
has a line feed or goes on to the end of the text, and never a second one. `Spaced` takes the tokens of a
text apart at the written ones, with the gap before each of them.
-/

namespace RoseLang

open Text

/-- The kinds that may end a statement. -/
def statementEnds : List Kind :=
  [.ident, .int, .float, .char, .string, .rawString, .rparen, .rbrack, .rbrace, .inc, .dec, .breakWord,
    .continueWord, .fallthroughWord, .returnWord]

theorem Kind.endsStatement_iff (k : Kind) : k.endsStatement = true ↔ k ∈ statementEnds := by
  cases k <;> decide

/-- The tokens `ss`, which nobody wrote, are those that stand for the gap in front of the written token `t`.
A line end in the gap is a terminator if `pending` is set. -/
structure Between (base : Pos) (source : List Char) (pending : Bool) (before gap : List Char) (ss : List Token)
    (t : Token) : Prop where
  chars : before ++ gap <+: source
  start : t.span.start.index = base.index + utf8Length (before ++ gap)
  implicit : ∀ s ∈ ss, s.isImplicitSemi = true
  written : t.isImplicitSemi = false
  texts : ss.map Token.text =
    if pending = true ∧ ('\n' ∈ gap ∨ t.kind = .eof) then [if '\n' ∈ gap then "\n" else ""] else []

/-- The tokens that stand for what comes after `before` in the source: for each gap those that nobody wrote,
then the written one after it, and the end token last. -/
inductive Spaced (base : Pos) (source : List Char) : Bool → List Char → List Token → Prop where
  | last {pending : Bool} {before gap : List Char} {ss : List Token} {t : Token}
      (h : Between base source pending before gap ss t) (heof : t.kind = .eof) :
      Spaced base source pending before (ss ++ [t])
  | more {pending : Bool} {before gap next : List Char} {ss ts : List Token} {t : Token}
      (h : Between base source pending before gap ss t)
      (hstop : t.span.stop.index = base.index + utf8Length next)
      (hrest : Spaced base source t.kind.endsStatement next ts) :
      Spaced base source pending before (ss ++ t :: ts)

namespace Lexer

variable {base : Pos} {source before cs after gap : List Char} {l l' : Lexer} {ss : List Token} {t : Token}

theorem ReadsToken.written (h : ReadsToken l cs after t l') : t.isImplicitSemi = false := by
  by_cases hkind : t.kind = .semi
  · have hcs : cs = [';'] := by
      rcases h.spelled with hword | hspelled
      · rw [hkind] at hword
        cases hword
      · rw [hspelled, hkind]
        rfl
    rw [Token.isImplicitSemi, h.text, hkind, hcs]
    rfl
  · rw [Token.isImplicitSemi, decide_eq_false hkind, Bool.false_and]

/-- A gap that is passed belongs to the one after it, if any. Its line feed is the first one. -/
theorem PassesGap.between {fault : Option LexicalFault} (hgap : PassesGap l cs after fault l')
    (h : Between base source l'.pending (before ++ cs) gap ss t) :
    Between base source l.pending before (cs ++ gap)
      ((if l.pending && cs.contains '\n' then [⟨.semi, ⟨l.pos, l'.pos⟩, "\n"⟩] else []) ++ ss) t where
  chars := by rw [← List.append_assoc]; exact h.chars
  start := by rw [← List.append_assoc]; exact h.start
  implicit s hs := by
    rcases List.mem_append.mp hs with hs | hs
    · split at hs
      · obtain rfl := List.mem_singleton.mp hs
        rfl
      · cases hs
    · exact h.implicit s hs
  written := h.written
  texts := by
    have htexts := h.texts
    rw [hgap.pending] at htexts
    rw [List.map_append, htexts]
    by_cases hline : '\n' ∈ cs
    · cases l.pending with
      | true => simp [hline]
      | false => simp
    · cases l.pending with
      | true => simp [hline]
      | false => simp

theorem PassesGap.spaced {fault : Option LexicalFault} (hgap : PassesGap l cs after fault l')
    (h : Spaced base source l'.pending (before ++ cs) l'.tokenize.1) :
    Spaced base source l.pending before l.tokenize.1 := by
  rw [hgap.tokenize]
  dsimp only
  generalize l'.tokenize.1 = ts at h ⊢
  cases h with
  | last hbetween heof =>
    rw [← List.append_assoc]
    exact .last (hgap.between hbetween) heof
  | more hbetween hstop hrest =>
    rw [← List.append_assoc]
    exact .more (hgap.between hbetween) hstop hrest

theorem At.spaced (h : l.At base source before) : Spaced base source l.pending before l.tokenize.1 := by
  induction l using tokenize_induction generalizing before with
  | nil l hrest =>
    have hcovers := h.covers_nothing
    have hend : Between base source l.pending before []
        (if l.pending then [⟨.semi, ⟨l.pos, l.pos⟩, ""⟩] else []) ⟨.eof, ⟨l.pos, l.pos⟩, ""⟩ := by
      refine ⟨hcovers.chars, ?_, fun s hs => ?_, rfl, ?_⟩
      · rw [List.append_nil]
        exact hcovers.start
      · split at hs
        · obtain rfl := List.mem_singleton.mp hs
          rfl
        · cases hs
      · cases l.pending with
        | true => simp
        | false => simp
    rw [tokenize_of_nil hrest]
    exact .last hend rfl
  | gap l cs after fault l' hgap ih => exact hgap.spaced (ih (h.advances hgap.toAdvances))
  | token l cs after t l' htoken ih =>
    have hnext := h.advances htoken.toAdvances
    have hspaced := ih hnext
    rw [htoken.pending] at hspaced
    have hnone : Between base source l.pending before [] [] t := by
      refine ⟨?_, ?_, by simp, htoken.written, ?_⟩
      · rw [List.append_nil, h.source_eq]
        exact List.prefix_append _ _
      · rw [List.append_nil, htoken.span]
        exact h.index_pos
      · simp [htoken.kind_ne]
    rw [htoken.tokenize]
    refine .more hnone ?_ hspaced
    rw [htoken.span]
    exact hnext.index_pos

end Lexer

/-! ### Gaps between written tokens -/

theorem append_cons_eq_append_cons {α : Type} {p : α → Bool} {as bs us ys : List α} {a x : α}
    (h : as ++ a :: bs = us ++ x :: ys) (has : ∀ b ∈ as, p b = true) (hx : p x = false) :
    us = as ∧ x = a ∧ ys = bs ∨ ∃ ws, us = as ++ a :: ws ∧ bs = ws ++ x :: ys := by
  rcases List.append_eq_append_iff.mp h with ⟨ws, rfl, hws⟩ | ⟨ws, rfl, hws⟩
  · cases ws with
    | nil =>
      obtain ⟨rfl, rfl⟩ := List.cons.inj hws
      exact .inl ⟨List.append_nil _, rfl, rfl⟩
    | cons w ws =>
      obtain ⟨rfl, rfl⟩ := List.cons.inj hws
      exact .inr ⟨ws, rfl, rfl⟩
  · cases ws with
    | nil =>
      obtain ⟨rfl, rfl⟩ := List.cons.inj hws
      exact .inl ⟨(List.append_nil _).symm, rfl, rfl⟩
    | cons w ws =>
      obtain ⟨rfl, rfl⟩ := List.cons.inj hws
      have := has x (List.mem_append_right us List.mem_cons_self)
      rw [hx] at this
      cases this

namespace Spaced

variable {base : Pos} {source before : List Char} {pending : Bool} {ts us vs ss : List Token} {t u : Token}

/-- The first gap is the one in front of the first written token. -/
theorem between_first (h : Spaced base source pending before ts) (hsplit : ts = us ++ t :: vs)
    (himplicit : ∀ s ∈ us, s.isImplicitSemi = true) (hwritten : t.isImplicitSemi = false) :
    ∃ gap, Between base source pending before gap us t := by
  obtain ⟨gap, ss, u, ts', hbetween, rfl⟩ : ∃ gap ss u ts', Between base source pending before gap ss u ∧
      ts = ss ++ u :: ts' := by
    cases h with
    | last hbetween _ => exact ⟨_, _, _, [], hbetween, rfl⟩
    | more hbetween _ _ => exact ⟨_, _, _, _, hbetween, rfl⟩
  rcases append_cons_eq_append_cons hsplit hbetween.implicit hwritten with ⟨rfl, rfl, -⟩ | ⟨ws, rfl, -⟩
  · exact ⟨gap, hbetween⟩
  · have hu := himplicit u (List.mem_append_right ss List.mem_cons_self)
    rw [hbetween.written] at hu
    cases hu

/-- Each written token but the last one is followed by a gap, up to the next written one. -/
theorem between_next (h : Spaced base source pending before ts) (hsplit : ts = us ++ t :: (ss ++ u :: vs))
    (ht : t.isImplicitSemi = false) (himplicit : ∀ s ∈ ss, s.isImplicitSemi = true)
    (hu : u.isImplicitSemi = false) :
    ∃ before gap, t.span.stop.index = base.index + utf8Length before ∧
      Between base source t.kind.endsStatement before gap ss u := by
  induction h generalizing us with
  | last hbetween _ =>
    rcases append_cons_eq_append_cons hsplit hbetween.implicit ht with ⟨-, -, hnil⟩ | ⟨ws, -, hnil⟩
    · simp at hnil
    · simp at hnil
  | more hbetween hstop hrest ih =>
    rcases append_cons_eq_append_cons hsplit hbetween.implicit ht with ⟨-, rfl, rfl⟩ | ⟨ws, -, hts⟩
    · obtain ⟨gap, hnext⟩ := hrest.between_first rfl himplicit hu
      exact ⟨_, gap, hstop, hnext⟩
    · exact ih hts

end Spaced

/-- Terminators that nobody wrote stand where the first of two written tokens may end a statement and a line
feed or the end of the text follows, one each time, and never before the first written token. -/
theorem tokenize_terminators (source : String) (base : Pos)
    (h : base.index + utf8Length source.toList ≤ Pos.last.index) :
    let ts := (Lexer.ofText source base).tokenize.1
    (∀ us t vs, ts = us ++ t :: vs → (∀ s ∈ us, s.isImplicitSemi = true) → t.isImplicitSemi = false → us = []) ∧
      ∀ us t ss u vs, ts = us ++ t :: (ss ++ u :: vs) → t.isImplicitSemi = false →
        (∀ s ∈ ss, s.isImplicitSemi = true) → u.isImplicitSemi = false →
        ∃ before gap, Span.Covers ⟨t.span.stop, u.span.start⟩ base source.toList before gap ∧
          ss.map Token.text =
            if t.kind ∈ statementEnds ∧ ('\n' ∈ gap ∨ u.kind = .eof) then [if '\n' ∈ gap then "\n" else ""]
            else [] := by
  have hspaced := (Lexer.at_ofText h).spaced
  refine ⟨fun us t vs hsplit himplicit ht => ?_, fun us t ss u vs hsplit ht himplicit hu => ?_⟩
  · obtain ⟨gap, hbetween⟩ := hspaced.between_first hsplit himplicit ht
    exact List.map_eq_nil_iff.mp hbetween.texts
  · obtain ⟨before, gap, hstop, hbetween⟩ := hspaced.between_next hsplit ht himplicit hu
    refine ⟨before, gap, ⟨hbetween.chars, hstop, ?_⟩, ?_⟩
    · rw [hbetween.start, hstop, utf8Length_append, Nat.add_assoc]
    · rw [hbetween.texts]
      simp only [Kind.endsStatement_iff]

/-- The first of two comments with line feeds stands for the one terminator between the names. -/
theorem tokenize_terminators_comments :
    let source := "a /*\n*/ /*\n*/ b"
    let t : Token := ⟨.ident, ⟨⟨1⟩, ⟨2⟩⟩, "a"⟩
    let s : Token := ⟨.semi, ⟨⟨3⟩, ⟨8⟩⟩, "\n"⟩
    let u : Token := ⟨.ident, ⟨⟨15⟩, ⟨16⟩⟩, "b"⟩
    let rest : List Token := [⟨.semi, ⟨⟨16⟩, ⟨16⟩⟩, ""⟩, ⟨.eof, ⟨⟨16⟩, ⟨16⟩⟩, ""⟩]
    1 + utf8Length source.toList ≤ Pos.last.index ∧
      (Lexer.ofText source ⟨1⟩).tokenize.1 = t :: s :: u :: rest ∧
      t.isImplicitSemi = false ∧ s.isImplicitSemi = true ∧ u.isImplicitSemi = false ∧
      ∃ before gap, Span.Covers ⟨⟨2⟩, ⟨15⟩⟩ ⟨1⟩ source.toList before gap ∧ '\n' ∈ gap := by
  intro source t s u rest
  have hfits : 1 + utf8Length source.toList ≤ Pos.last.index := by decide +kernel
  have htokens : (Lexer.ofText source ⟨1⟩).tokenize.1 = t :: s :: u :: rest := by decide +kernel
  have himplicit : ∀ x ∈ [s], x.isImplicitSemi = true := List.forall_mem_singleton.mpr rfl
  obtain ⟨before, gap, hcovers, htexts⟩ :=
    (tokenize_terminators source ⟨1⟩ hfits).2 [] t [s] u rest htokens rfl himplicit rfl
  refine ⟨hfits, htokens, rfl, rfl, rfl, before, gap, hcovers, ?_⟩
  apply Decidable.byContradiction
  intro hnone
  simp [hnone, u] at htexts

end RoseLang
