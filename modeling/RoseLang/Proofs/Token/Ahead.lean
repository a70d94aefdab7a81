import RoseLang.Proofs.Token.Cuts
import RoseLang.Proofs.Token.Extent

/-!
# What a piece sees of the text after it

Where a piece ends is decided by its own characters and by the first one after it, and of that one no more is seen
than whether the piece goes on with it. So a space does as well in its place, but for a line feed: that is where a
line comment and an open quoted literal end. This holds of faulty pieces, too.
-/

namespace RoseLang

/-- Behind a piece the second text may stand in the place of the first one. It starts with the same character, or with
a space instead of one that is no line feed, and it ends where the first one does. -/
inductive Replaces : List Char → List Char → Prop where
  | nil : Replaces [] []
  | same (c : Char) (cs cs' : List Char) : Replaces (c :: cs) (c :: cs')
  | blank {c : Char} (hc : c ≠ '\n') (cs cs' : List Char) : Replaces (c :: cs) (' ' :: cs')

/-- Only at a line feed an escape takes no character. -/
theorem QuotedLiteral.eq_newline_of_escape {c : Char} {cs : List Char} (h : (escape (c :: cs)).1 ≤ 0) : c = '\n' := by
  rw [escape] at h
  split at h
  · exact absurd h (Nat.not_succ_le_zero _)
  · split at h
    · next hdigit =>
      rw [escapeDigits, if_pos hdigit] at h
      exact absurd h (Nat.not_succ_le_zero _)
    · split at h
      · exact absurd h (Nat.not_succ_le_zero _)
      · split at h
        · assumption
        · exact absurd h (Nat.not_succ_le_zero _)

/-- Only at a line feed a quoted literal takes no character. -/
theorem QuotedLiteral.eq_newline_of_body {quote c : Char} {offset : Nat} {cs : List Char}
    (h : (body quote offset (c :: cs)).length ≤ 0) : c = '\n' := by
  rw [body] at h
  split at h
  · assumption
  · split at h
    · exact absurd h (Nat.not_succ_le_zero _)
    · split at h
      all_goals
        dsimp only at h
        omega

namespace Sign

theorem withAssign_cons (short long : Kind) (d : Char) (ds ds' : List Char) :
    withAssign short long (d :: ds) = withAssign short long (d :: ds') := by
  by_cases hd : d = '='
  · subst hd
    rfl
  · rw [withAssign.eq_def, withAssign.eq_def]
    simp [hd]

/-- A sign is told by its first three characters. -/
theorem kind?_cons_cons (c d e : Char) (ds ds' : List Char) : kind? c (d :: e :: ds) = kind? c (d :: e :: ds') := by
  have hfirst : ∀ short long, withAssign short long (d :: e :: ds) = withAssign short long (d :: e :: ds') :=
    fun short long => withAssign_cons short long d _ _
  have hsecond : ∀ short long, withAssign short long (e :: ds) = withAssign short long (e :: ds') :=
    fun short long => withAssign_cons short long e _ _
  rw [kind?.eq_def, kind?.eq_def]
  simp only [hfirst]
  split
  all_goals first | rfl | skip
  · by_cases hd : d = '+' <;> simp [hd]
  · by_cases hd : d = '-' <;> simp [hd]
  · by_cases hd : d = '*' <;> simp [hd, hsecond]
  · by_cases hd : d = '^' <;> simp [hd, hsecond]
  · by_cases hd : d = '<'
    · simp [hd, hsecond]
    · by_cases hd' : d = '-' <;> simp [hd, hd']
  · by_cases hd : d = '>' <;> simp [hd, hsecond]
  · by_cases hd : d = '.'
    · by_cases he : e = '.' <;> simp [hd, he]
    · simp [hd]

theorem lt_length_withAssign {short long : Kind} {n : Nat} (hshort : n < short.spelling.length)
    (hlong : n < long.spelling.length) (cs : List Char) : n < (withAssign short long cs).spelling.length := by
  rw [withAssign.eq_def]
  split
  · exact hlong
  · exact hshort

/-- Whether a sign goes on after its first character is told by the next one. -/
theorem kind?_cons {c d : Char} {ds : List Char} {kind : Kind} (h : kind? c (d :: ds) = some kind)
    (hone : kind.spelling.length ≤ 1) (ds' : List Char) : kind? c (d :: ds') = some kind := by
  have hfirst : ∀ short long, withAssign short long (d :: ds) = withAssign short long (d :: ds') :=
    fun short long => withAssign_cons short long d _ _
  have htwo : ∀ {short long : Kind} {es : List Char}, 1 < short.spelling.length → 1 < long.spelling.length →
      withAssign short long es ≠ kind := by
    rintro short long es hshort hlong rfl
    exact absurd hone (Nat.not_le.mpr (lt_length_withAssign hshort hlong es))
  rw [kind?.eq_def] at h ⊢
  simp only [hfirst] at h
  split at h
  all_goals first | exact h | skip
  · by_cases hd : d = '+'
    · subst hd
      exact h
    · simpa [hd] using h
  · by_cases hd : d = '-'
    · subst hd
      exact h
    · simpa [hd] using h
  · by_cases hd : d = '*'
    · subst hd
      exact absurd (Option.some.inj h) (htwo (by decide) (by decide))
    · simpa [hd] using h
  · by_cases hd : d = '^'
    · subst hd
      exact absurd (Option.some.inj h) (htwo (by decide) (by decide))
    · simpa [hd] using h
  · by_cases hd : d = '<'
    · subst hd
      exact absurd (Option.some.inj h) (htwo (by decide) (by decide))
    · by_cases hd' : d = '-'
      · subst hd'
        exact h
      · simpa [hd, hd'] using h
  · by_cases hd : d = '>'
    · subst hd
      exact absurd (Option.some.inj h) (htwo (by decide) (by decide))
    · simpa [hd] using h
  · by_cases hd : d = '.'
    · subst hd
      split at h
      · cases h
        exact absurd hone (by decide)
      · cases h
      · next hnone => exact absurd rfl (hnone ds)
    · simpa [hd] using h

/-- Whether a sign starts with the character is told by that alone, but for two points. -/
theorem kind?_eq_none {c : Char} {cs : List Char} (hc : c ≠ '.') (h : kind? c cs = none) (cs' : List Char) :
    kind? c cs' = none := by
  rw [kind?.eq_def] at h ⊢
  split at h
  all_goals first | rfl | cases h | exact absurd rfl hc

theorem kind?_points {cs : List Char} : kind? '.' ('.' :: cs) = none ↔ cs.head? ≠ some '.' := by
  cases cs with
  | nil => decide
  | cons c cs => by_cases hc : c = '.' <;> simp [kind?, hc]

end Sign

namespace Replaces

variable {cs tail tail' : List Char} (h : Replaces tail tail')
include h

/-- Of a property that a space does not have. -/
theorem stop {p : Char → Bool} (hspace : p ' ' = false) (hstop : ∀ c ∈ tail.head?, p c = false) :
    ∀ c ∈ tail'.head?, p c = false := by
  cases h with
  | nil => simp
  | same c cs cs' => exact hstop
  | blank hc cs cs' => simpa using hspace

theorem line (hstop : ∀ c ∈ tail.head?, decide (c ≠ '\n') = false) : ∀ c ∈ tail'.head?, decide (c ≠ '\n') = false := by
  cases h with
  | nil => simp
  | same => exact hstop
  | blank hc => exact absurd hc (of_decide_eq_false (hstop _ rfl))

theorem endsToo : Number.EndsToo tail tail' := by
  intro c hc hgoesOn
  cases h with
  | nil => cases hc
  | same => exact hc
  | blank =>
    cases hc
    cases hgoesOn

theorem head?_append_ne {d : Char} (hd : d ≠ ' ') (hne : (cs ++ tail).head? ≠ some d) :
    (cs ++ tail').head? ≠ some d := by
  cases cs with
  | nil =>
    cases h with
    | nil => exact hne
    | same => exact hne
    | blank => simpa using Ne.symm hd
  | cons c cs => exact hne

theorem head?_any_append {p : Char → Bool} (hspace : p ' ' = false) (hnone : (cs ++ tail).head?.any p = false) :
    (cs ++ tail').head?.any p = false := by
  cases cs with
  | nil =>
    cases h with
    | nil => exact hnone
    | same => exact hnone
    | blank => simpa using hspace
  | cons c cs => exact hnone

/-! ### Quoted literals -/

theorem escapeDigits {radix : Radix} {n : Nat} (hle : (QuotedLiteral.escapeDigits radix n (cs ++ tail)).1 ≤ cs.length) :
    QuotedLiteral.escapeDigits radix n (cs ++ tail') = QuotedLiteral.escapeDigits radix n (cs ++ tail) := by
  induction n generalizing cs with
  | zero => rfl
  | succ n ih =>
    cases cs with
    | nil =>
      have hnone : ∀ c ds, Number.isDigit radix c = false →
          QuotedLiteral.escapeDigits radix (n + 1) (c :: ds) = (0, some .invalidEscape) := by
        intro c ds hc
        rw [QuotedLiteral.escapeDigits, if_neg (Bool.eq_false_iff.mp hc)]
      have hend : ∀ c ds, tail = c :: ds → Number.isDigit radix c = false := by
        rintro c ds rfl
        rw [List.nil_append, QuotedLiteral.escapeDigits] at hle
        split at hle
        · exact absurd hle (Nat.not_succ_le_zero _)
        · next hc => exact Bool.eq_false_iff.mpr hc
      cases h with
      | nil => rfl
      | same c ds ds' => rw [List.nil_append, List.nil_append, hnone c _ (hend c _ rfl), hnone c _ (hend c _ rfl)]
      | @blank c hc ds ds' =>
        rw [List.nil_append, List.nil_append, hnone c _ (hend c _ rfl), hnone ' ' _ (by cases radix <;> decide)]
    | cons c cs =>
      rw [List.cons_append, QuotedLiteral.escapeDigits] at hle
      rw [List.cons_append, List.cons_append, QuotedLiteral.escapeDigits, QuotedLiteral.escapeDigits]
      split
      · next hc =>
        rw [if_pos hc] at hle
        rw [ih (Nat.le_of_succ_le_succ hle)]
      · rfl

theorem escape (hle : (QuotedLiteral.escape (cs ++ tail)).1 ≤ cs.length) :
    QuotedLiteral.escape (cs ++ tail') = QuotedLiteral.escape (cs ++ tail) := by
  cases cs with
  | nil =>
    cases h with
    | nil => rfl
    | same c ds ds' =>
      obtain rfl := QuotedLiteral.eq_newline_of_escape hle
      rfl
    | blank hc => exact absurd (QuotedLiteral.eq_newline_of_escape hle) hc
  | cons c cs =>
    rw [List.cons_append, QuotedLiteral.escape] at hle
    rw [List.cons_append, List.cons_append, QuotedLiteral.escape, QuotedLiteral.escape]
    split
    · rfl
    · next hsimple =>
      rw [if_neg hsimple] at hle
      split
      · next hdigit =>
        rw [if_pos hdigit, ← List.cons_append] at hle
        rw [← List.cons_append, ← List.cons_append, h.escapeDigits hle]
      · next hdigit =>
        rw [if_neg hdigit] at hle
        cases hhex : QuotedLiteral.hexEscape? c with
        | some n =>
          rw [hhex] at hle
          dsimp only at hle ⊢
          rw [h.escapeDigits (Nat.le_of_succ_le_succ hle)]
        | none => rfl

/-- A literal that has not been closed ends with the text or at a line feed. -/
theorem body {quote : Char} {offset : Nat} {cs : List Char}
    (hle : (QuotedLiteral.body quote offset (cs ++ tail)).length ≤ cs.length) :
    QuotedLiteral.body quote offset (cs ++ tail') = QuotedLiteral.body quote offset (cs ++ tail) := by
  induction hn : cs.length using Nat.strongRecOn generalizing cs offset with
  | ind n ih =>
    cases cs with
    | nil =>
      cases h with
      | nil => rfl
      | same c ds ds' =>
        obtain rfl := QuotedLiteral.eq_newline_of_body hle
        rw [List.nil_append, List.nil_append, QuotedLiteral.body, QuotedLiteral.body, if_pos rfl, if_pos rfl]
      | blank hc => exact absurd (QuotedLiteral.eq_newline_of_body hle) hc
    | cons c cs =>
      rw [List.cons_append, QuotedLiteral.body] at hle
      rw [List.cons_append, List.cons_append, QuotedLiteral.body, QuotedLiteral.body]
      split
      · rfl
      · next hline =>
        rw [if_neg hline] at hle
        split
        · rfl
        · next hquote =>
          rw [if_neg hquote] at hle
          split
          · next hescape =>
            rw [if_pos hescape] at hle
            dsimp only at hle ⊢
            rw [List.length_cons] at hle hn
            rw [h.escape (by omega)]
            generalize QuotedLiteral.escape (cs ++ tail) = read at hle ⊢
            have hread : read.1 ≤ cs.length := by omega
            have hdrop : (cs.drop read.1).length = cs.length - read.1 := List.length_drop
            simp only [List.take_append_of_le_length hread, List.drop_append_of_le_length hread] at hle ⊢
            rw [ih _ (by omega) (by omega) hdrop]
          · next hescape =>
            rw [if_neg hescape] at hle
            dsimp only at hle ⊢
            rw [List.length_cons] at hle hn
            rw [ih _ (by omega) (by omega) rfl]

theorem quoted {kind : LiteralKind} {quote : Char}
    (hle : (QuotedLiteral.scan kind quote (cs ++ tail)).more ≤ cs.length) :
    QuotedLiteral.scan kind quote (cs ++ tail') = QuotedLiteral.scan kind quote (cs ++ tail) := by
  have hlength : (QuotedLiteral.body quote 1 (cs ++ tail)).length ≤ cs.length := hle
  rw [QuotedLiteral.scan, QuotedLiteral.scan, h.body hlength, List.take_append_of_le_length hlength,
    List.take_append_of_le_length hlength]

/-- A raw string that has not been closed ends with the text. -/
theorem raw (hle : (QuotedLiteral.scanRaw (cs ++ tail)).more ≤ cs.length) :
    QuotedLiteral.scanRaw (cs ++ tail') = QuotedLiteral.scanRaw (cs ++ tail) := by
  by_cases hclosed : ((cs ++ tail).takeWhile (· ≠ '\x60')).length < (cs ++ tail).length
  · rw [QuotedLiteral.scanRaw, if_pos hclosed] at hle
    have hprefix : (cs ++ tail).take (((cs ++ tail).takeWhile (· ≠ '\x60')).length + 1) <+: cs ++ tail' := by
      rw [List.take_append_of_le_length hle]
      exact (List.take_prefix _ _).trans (List.prefix_append _ _)
    have hinner := takeWhile_of_isPrefix hclosed hprefix
    have hlonger : ((cs ++ tail).takeWhile (· ≠ '\x60')).length < (cs ++ tail').length := by
      rw [List.length_append]
      dsimp only at hle
      omega
    rw [QuotedLiteral.scanRaw, QuotedLiteral.scanRaw, hinner, if_pos hclosed, if_pos hlonger]
  · have hall : (cs ++ tail).takeWhile (· ≠ '\x60') = cs ++ tail :=
      (List.takeWhile_prefix _).eq_of_length_le (Nat.not_lt.mp hclosed)
    rw [QuotedLiteral.scanRaw, if_neg hclosed, hall] at hle
    dsimp only at hle
    rw [List.length_append] at hle
    obtain rfl := List.length_eq_zero_iff.mp (by omega : tail.length = 0)
    cases h
    rfl

/-! ### Comments and signs -/

theorem comment (hle : (Piece.commentLength (cs ++ tail)).1 ≤ cs.length) :
    Piece.commentLength (cs ++ tail') = Piece.commentLength (cs ++ tail) := by
  induction cs with
  | nil =>
    cases h with
    | nil => rfl
    | same | blank =>
      rw [List.nil_append, Piece.commentLength] at hle
      split at hle
      · exact absurd hle (Nat.not_succ_le_zero _)
      · exact absurd hle (Nat.not_succ_le_zero _)
  | cons c cs ih =>
    rw [List.cons_append, Piece.commentLength] at hle
    rw [List.cons_append, List.cons_append, Piece.commentLength, Piece.commentLength]
    by_cases hclose : c = '*' ∧ (cs ++ tail).head? = some '/'
    · rw [if_pos hclose] at hle
      obtain ⟨d, ds, rfl⟩ := List.exists_cons_of_length_pos (Nat.le_of_succ_le_succ hle)
      rw [if_pos hclose]
      exact if_pos hclose
    · rw [if_neg hclose] at hle
      have hopen : ¬ (c = '*' ∧ (cs ++ tail').head? = some '/') := fun h' =>
        h.head?_append_ne (by decide) (fun hslash => hclose ⟨h'.1, hslash⟩) h'.2
      rw [if_neg hclose, if_neg hopen, ih (Nat.le_of_succ_le_succ hle)]

theorem blockComment (hle : (Piece.commentLength (cs ++ tail)).1 ≤ cs.length) :
    Piece.blockComment (cs ++ tail') = Piece.blockComment (cs ++ tail) := by
  rw [Piece.blockComment, Piece.blockComment, h.comment hle]
  dsimp only
  rw [List.take_append_of_le_length hle, List.take_append_of_le_length hle]

theorem sign {c : Char} {kind : Kind} (hkind : Sign.kind? c (cs ++ tail) = some kind)
    (hlength : kind.spelling.length - 1 = cs.length) : Sign.kind? c (cs ++ tail') = some kind := by
  have halone := Sign.kind?_take hkind
  rw [hlength, List.take_left] at halone
  cases h with
  | nil => exact hkind
  | same d ds ds' =>
    cases cs with
    | nil => exact Sign.kind?_cons hkind (Nat.sub_eq_zero_iff_le.mp hlength) ds'
    | cons e es =>
      rw [← hkind]
      cases es with
      | nil => exact Sign.kind?_cons_cons c e d ds' ds
      | cons f fs => exact Sign.kind?_cons_cons c e f _ _
  | blank hc ds ds' => rw [Sign.kind?_append (delimits_cons (.inl rfl)), halone]

end Replaces

namespace Piece

variable {c : Char} {cs tail tail' : List Char}

/-- The number of its characters after the first one. -/
def more : Piece → Nat
  | gap more _ _ => more
  | token _ more _ => more

/-- The piece is the same with another text after it, if that one may stand in the place of the first. -/
theorem first_swap (htail : Replaces tail tail') (h : (first c (cs ++ tail)).more = cs.length) :
    first c (cs ++ tail') = first c (cs ++ tail) := by
  have hfirst := isFirst_first c (cs ++ tail)
  generalize first c (cs ++ tail) = p at h hfirst
  refine IsFirst.first_eq ?_
  cases hfirst with
  | blank hc => exact .blank hc
  | line hc => exact .line hc
  | word hc =>
    rw [← takeWhile_swap (htail.stop (by decide)) (Nat.le_of_eq h)]
    exact .word hc
  | number hword hc => exact htail.endsToo.scan (Nat.le_of_eq h) ▸ .number hword hc
  | char hc => exact htail.quoted (Nat.le_of_eq h) ▸ .char hc
  | string hc => exact htail.quoted (Nat.le_of_eq h) ▸ .string hc
  | raw hc => exact htail.raw (Nat.le_of_eq h) ▸ .raw hc
  | lineComment hc hcs =>
    -- The second slash is one of the comment's own characters, so another text after it does not take it away.
    obtain ⟨d, ds, rfl⟩ : ∃ d ds, cs = d :: ds := by
      cases cs with
      | nil =>
        obtain ⟨ds, htext⟩ := List.head?_eq_some_iff.mp hcs
        rw [htext] at h
        cases h
      | cons d ds => exact ⟨d, ds, rfl⟩
    rw [← takeWhile_swap htail.line (Nat.le_of_eq h)]
    exact .lineComment hc hcs
  | blockComment hc hcs =>
    have hmore : 1 + (commentLength ((cs ++ tail).drop 1)).1 = cs.length := h
    obtain ⟨d, ds, rfl⟩ := List.exists_cons_of_length_pos (hmore ▸ Nat.lt_add_right _ Nat.zero_lt_one)
    rw [List.cons_append, List.drop_one, List.tail_cons, List.length_cons, Nat.add_comm] at hmore
    exact htail.blockComment (Nat.le_of_succ_le_succ (Nat.le_of_eq hmore)) ▸ .blockComment hc hcs
  | fraction hc hcs =>
    have hmore : (Number.scanFraction (cs ++ tail)).more = cs.length := h
    obtain ⟨d, ds, rfl⟩ := List.exists_cons_of_length_pos (hmore ▸ Number.more_scanFraction_pos hcs)
    exact htail.endsToo.scanFraction (Nat.le_of_eq hmore) ▸ .fraction hc hcs
  | sign hc hcomment hpoint hkind =>
    refine .sign hc (fun hslash => ?_) (fun hdot => ?_) (htail.sign hkind h)
    · obtain ⟨hline, hblock⟩ := hcomment hslash
      exact ⟨htail.head?_append_ne (by decide) hline, htail.head?_append_ne (by decide) hblock⟩
    · exact htail.head?_any_append (by decide) (hpoint hdot)
  | points hc hkind =>
    subst hc
    obtain ⟨d, rfl⟩ := List.length_eq_one_iff.mp h.symm
    obtain ⟨ds, htext⟩ := Sign.point_of_kind?_eq_none hkind
    obtain ⟨rfl, rfl⟩ := List.cons.inj htext
    have hthird : ([] ++ tail').head? ≠ some '.' := htail.head?_append_ne (by decide) (Sign.kind?_points.mp hkind)
    exact .points rfl (Sign.kind?_points.mpr hthird)
  | illegal hc hpoint hkind => exact .illegal hc hpoint (Sign.kind?_eq_none hpoint hkind _)

end Piece

end RoseLang
