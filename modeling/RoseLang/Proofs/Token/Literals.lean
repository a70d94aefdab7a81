import RoseLang.Proofs.Token.Pieces

/-!
# Which scanner reads a literal

A token of a literal kind is read by the scanner that its first characters call for: numbers start with a digit or
with a point before a digit, and each of the other kinds has a quote of its own. Neither words nor signs are
literals.
-/

namespace RoseLang

/-! ### The kinds that scanners find -/

theorem Number.kind_scanUnmarked (first : Char) (cs : List Char) :
    (scanUnmarked first cs).kind = .int ∨ (scanUnmarked first cs).kind = .float := by
  rw [scanUnmarked_eq]
  dsimp only
  split
  · exact .inl rfl
  · exact .inr rfl

theorem Number.kind_scan (first : Char) (cs : List Char) :
    (scan first cs).kind = .int ∨ (scan first cs).kind = .float := by
  rw [scan.eq_def]
  split
  · split
    · exact .inl rfl
    · apply kind_scanUnmarked
  · apply kind_scanUnmarked

theorem QuotedLiteral.kind_scanRaw (cs : List Char) : (scanRaw cs).kind = .rawString := by
  rw [scanRaw]
  split <;> rfl

theorem Word.kind_mem (word : String) : kind word ∈ Kind.ident :: (Kind.keywords ++ Kind.operatorWords) := by
  rw [kind]
  cases hfound : (Kind.keywords ++ Kind.operatorWords).find? (fun k => k.spelling = word) with
  | none => exact List.mem_cons_self
  | some k => exact List.mem_cons_of_mem _ (List.mem_of_find?_eq_some hfound)

/-- A word that is no identifier is written as its kind is spelled. -/
theorem Word.spelling_kind {word : String} (h : kind word ≠ .ident) : (kind word).spelling = word := by
  rw [kind] at h ⊢
  cases hfound : (Kind.keywords ++ Kind.operatorWords).find? (fun k => k.spelling = word) with
  | none =>
    rw [hfound] at h
    exact absurd rfl h
  | some k => simpa using List.find?_some hfound

/-! ### Literals between quotes -/

/-- The kinds of literals that stand between quotes, each with its quote and with the scanner for what comes after
the first quote. -/
inductive IsQuote : LiteralKind → Char → (List Char → LiteralScan) → Prop where
  | char : IsQuote .char '\x27' (QuotedLiteral.scan .char '\x27')
  | string : IsQuote .string '\x22' (QuotedLiteral.scan .string '\x22')
  | raw : IsQuote .rawString '\x60' QuotedLiteral.scanRaw

namespace IsQuote

variable {kind : LiteralKind} {quote quote' : Char} {scan scan' : List Char → LiteralScan}

theorem kind_eq (h : IsQuote kind quote scan) (cs : List Char) : (scan cs).kind = kind := by
  cases h with
  | char | string => rfl
  | raw => exact QuotedLiteral.kind_scanRaw cs

theorem unique (h : IsQuote kind quote scan) (h' : IsQuote kind quote' scan') : quote' = quote ∧ scan' = scan := by
  cases h <;> cases h' <;> exact ⟨rfl, rfl⟩

theorem ne_number (h : IsQuote kind quote scan) : kind ≠ .int ∧ kind ≠ .float := by
  cases h <;> decide

end IsQuote

/-! ### Literals -/

namespace Piece

variable {c quote : Char} {cs : List Char} {kind : LiteralKind} {more : Nat} {faults : List FaultAt}
  {scan : List Char → LiteralScan}

/-- The literal that starts with `c` and goes on in `cs`, by the characters that tell which scanner reads it. -/
inductive IsLiteral (c : Char) (cs : List Char) : LiteralScan → Prop where
  | number (hword : ¬ Word.isStart c = true) (hc : Number.isDigit .decimal c = true) :
      IsLiteral c cs (Number.scan c cs)
  | fraction (hc : c = '.') (hcs : cs.head?.any (Number.isDigit .decimal) = true) :
      IsLiteral c cs (Number.scanFraction cs)
  | quoted {kind : LiteralKind} {scan : List Char → LiteralScan} (hquote : IsQuote kind c scan) :
      IsLiteral c cs (scan cs)

theorem ofLiteral_eq_token_iff {s : LiteralScan} :
    ofLiteral s = .token kind.token more faults ↔ s = ⟨kind, more, faults⟩ := by
  obtain ⟨kind', more', faults'⟩ := s
  have hkind : kind'.token = kind.token ↔ kind' = kind := by
    refine ⟨fun h => ?_, congrArg LiteralKind.token⟩
    have hsame := LiteralKind.ofToken?_token kind'
    rw [h, LiteralKind.ofToken?_token] at hsame
    exact (Option.some.inj hsame).symm
  rw [ofLiteral_eq_token, LiteralScan.mk.injEq, hkind]

theorem isLiteral_of_first (h : first c cs = .token kind.token more faults) :
    IsLiteral c cs ⟨kind, more, faults⟩ := by
  have hfirst := isFirst_first c cs
  rw [h] at hfirst
  generalize hp : Piece.token kind.token more faults = p at hfirst
  cases hfirst with
  | blank | line | lineComment | blockComment | points | illegal => cases hp
  | word hc =>
    have hnone : ∀ k ∈ Kind.ident :: (Kind.keywords ++ Kind.operatorWords), LiteralKind.ofToken? k = none := by
      decide
    have hword := hnone _ (Word.kind_mem (String.ofList (c :: cs.takeWhile Word.isPart)))
    rw [← (Piece.token.inj hp).1, LiteralKind.ofToken?_token] at hword
    cases hword
  | sign hc hcomment hpoint hsign =>
    -- The spelling of the kind of a literal starts with a letter.
    obtain ⟨rfl, -, -⟩ := Piece.token.inj hp
    obtain ⟨letter, letters, hletters, hletter⟩ :
        ∃ d ds, kind.token.spelling.toList = d :: ds ∧ Word.isStart d = true := by
      cases kind <;> exact ⟨_, _, rfl, by decide⟩
    have hspelling := Sign.kind?_spelling hsign
    rw [hletters] at hspelling
    obtain ⟨rfl, -⟩ := List.cons_prefix_cons.mp hspelling
    exact absurd hletter hc.word
  | number hword hc => exact ofLiteral_eq_token_iff.mp hp.symm ▸ .number hword hc
  | fraction hc hcs => exact ofLiteral_eq_token_iff.mp hp.symm ▸ .fraction hc hcs
  | char hc =>
    subst hc
    exact ofLiteral_eq_token_iff.mp hp.symm ▸ .quoted .char
  | string hc =>
    subst hc
    exact ofLiteral_eq_token_iff.mp hp.symm ▸ .quoted .string
  | raw hc =>
    subst hc
    exact ofLiteral_eq_token_iff.mp hp.symm ▸ .quoted .raw

theorem IsLiteral.first_eq {s : LiteralScan} (h : IsLiteral c cs s) : first c cs = ofLiteral s := by
  apply IsFirst.first_eq
  cases h with
  | number hword hc => exact .number hword hc
  | fraction hc hcs => exact .fraction hc hcs
  | quoted hquote =>
    cases hquote with
    | char => exact .char rfl
    | string => exact .string rfl
    | raw => exact .raw rfl

/-- A token of a literal kind is what the scanner of that literal finds. -/
theorem first_eq_literal_iff : first c cs = .token kind.token more faults ↔ IsLiteral c cs ⟨kind, more, faults⟩ :=
  ⟨isLiteral_of_first, fun h => h.first_eq⟩

/-- A literal between quotes starts with the quote of its kind. -/
theorem isLiteral_quoted_iff (hquote : IsQuote kind quote scan) :
    IsLiteral c cs ⟨kind, more, faults⟩ ↔ c = quote ∧ scan cs = ⟨kind, more, faults⟩ := by
  constructor
  · intro h
    obtain ⟨hint, hfloat⟩ := hquote.ne_number
    generalize hs : (⟨kind, more, faults⟩ : LiteralScan) = s at h
    have hkind : s.kind = kind := by rw [← hs]
    cases h with
    | number hword hc =>
      rcases Number.kind_scan c cs with h | h
      · exact absurd (hkind.symm.trans h) hint
      · exact absurd (hkind.symm.trans h) hfloat
    | fraction hc hcs => exact absurd hkind.symm hfloat
    | quoted hquote' =>
      rw [hquote'.kind_eq] at hkind
      subst hkind
      obtain ⟨rfl, rfl⟩ := hquote.unique hquote'
      exact ⟨rfl, rfl⟩
  · rintro ⟨rfl, hscan⟩
    exact hscan ▸ .quoted hquote

end Piece

end RoseLang
