import RoseLang.Proofs.Token.Ahead
import RoseLang.Proofs.Token.Numeral
import RoseLang.Proofs.Token.Terminators

/-!
# Signs are read as long as possible

Of the signs that a text starts with, the longest is read. A sign is found by looks at the next character that are
never taken back, so this rests on three facts: a sign on its own is read as itself, the next character tells whether
a sign goes on after its first one, and the first three characters tell which sign it is.
-/

namespace RoseLang

open Text

/-- The characters start with the spelling of the kind, and with that of no other sign as long. -/
structure Kind.IsLongest (k : Kind) (cs : List Char) : Prop where
  spelled : k.spelling.toList <+: cs
  longest : ∀ k' ∈ signs, k'.spelling.toList <+: cs → k' = k ∨ k'.spelling.length < k.spelling.length

/-- What starts like a sign and is none: a comment, a fraction, or two points without a third. -/
inductive StartsOther : List Char → Prop where
  | lineComment (cs : List Char) : StartsOther ('/' :: '/' :: cs)
  | blockComment (cs : List Char) : StartsOther ('/' :: '*' :: cs)
  | fraction {d : Char} (hd : d ∈ Radix.decimal.digits) (cs : List Char) : StartsOther ('.' :: d :: cs)
  | points {cs : List Char} (hcs : cs.head? ≠ some '.') : StartsOther ('.' :: '.' :: cs)

namespace Sign

variable {c : Char} {cs word : List Char} {kind k k' : Kind}

theorem eq_of_length_eq (hk : k ∈ Kind.signs) (hk' : k' ∈ Kind.signs) (hspelled : k.spelling.toList <+: cs)
    (hspelled' : k'.spelling.toList <+: cs) (hlength : k.spelling.length = k'.spelling.length) : k = k' := by
  rw [← String.length_toList, ← String.length_toList] at hlength
  have hsame := (List.prefix_of_prefix_length_le hspelled hspelled' (Nat.le_of_eq hlength)).eq_of_length hlength
  obtain ⟨c, word, hword⟩ := k.spelling_eq_cons
  have hself := kind?_of_spelling hk hword
  rw [kind?_of_spelling hk' (hsame ▸ hword)] at hself
  exact (Option.some.inj hself).symm

theorem length_le_of_kind? (h : kind? c cs = some kind) (hk : k ∈ Kind.signs)
    (hspelled : k.spelling.toList <+: c :: cs) : k.spelling.length ≤ kind.spelling.length := by
  obtain ⟨d, word, hword⟩ := k.spelling_eq_cons
  have hself := kind?_of_spelling hk hword
  have hlength : k.spelling.length = word.length + 1 := by
    rw [← String.length_toList, hword, List.length_cons]
  rw [hword] at hspelled
  obtain ⟨rfl, rest, rfl⟩ := List.cons_prefix_cons.mp hspelled
  -- No sign is shorter than one character, the second one tells that this sign goes on, and three tell all of it.
  match word with
  | [] =>
    rw [hlength]
    exact kind.length_spelling_pos
  | [e] =>
    rw [hlength]
    apply Nat.lt_of_not_le
    intro hone
    rw [List.singleton_append] at h
    rw [kind?_cons h hone] at hself
    obtain rfl := Option.some.inj hself
    rw [hlength] at hone
    exact absurd hone (by simp)
  | e :: f :: word =>
    rw [List.cons_append, List.cons_append, kind?_cons_cons d e f _ word, hself] at h
    rw [Option.some.inj h]

theorem isLongest_of_kind? (h : kind? c cs = some kind) : kind.IsLongest (c :: cs) where
  spelled := kind?_spelling h
  longest k hk hspelled := by
    have hle := length_le_of_kind? h hk hspelled
    rcases Nat.lt_or_eq_of_le hle with hlt | heq
    · exact .inr hlt
    · exact .inl (eq_of_length_eq hk (mem_of_kind? h) hspelled (kind?_spelling h) heq)

end Sign

namespace Piece

variable {c : Char} {cs : List Char} {kind k : Kind}

theorem plain_of_sign {word : List Char} (hk : k ∈ Kind.signs) (hword : k.spelling.toList = c :: word) :
    Plain c := by
  have hall : ∀ k ∈ Kind.signs, Plain (k.spelling.toList.headD ' ') := by decide
  simpa [hword] using hall k hk

/-- What starts with the spelling of a sign is a sign, unless it is one of the other things. -/
theorem first_of_spelling (hk : k ∈ Kind.signs) (hspelled : k.spelling.toList <+: c :: cs)
    (hother : ¬ StartsOther (c :: cs)) :
    ∃ kind, Sign.kind? c cs = some kind ∧ first c cs = .token kind (kind.spelling.length - 1) [] := by
  obtain ⟨d, word, hword⟩ := k.spelling_eq_cons
  have hself := Sign.kind?_of_spelling hk hword
  have hplain := plain_of_sign hk hword
  rw [hword] at hspelled
  obtain ⟨rfl, -⟩ := List.cons_prefix_cons.mp hspelled
  have hcomment : d = '/' → cs.head? ≠ some '/' ∧ cs.head? ≠ some '*' := by
    rintro rfl
    refine ⟨fun hcs => hother ?_, fun hcs => hother ?_⟩
    · obtain ⟨ds, rfl⟩ := List.head?_eq_some_iff.mp hcs
      exact .lineComment ds
    · obtain ⟨ds, rfl⟩ := List.head?_eq_some_iff.mp hcs
      exact .blockComment ds
  have hpoint : d = '.' → cs.head?.any (Number.isDigit .decimal) = false := by
    rintro rfl
    cases cs with
    | nil => rfl
    | cons e ds =>
      rw [List.head?_cons, Option.any_some, Bool.eq_false_iff]
      intro hdigit
      exact hother (.fraction (Number.isDigit_iff.mp hdigit) ds)
  cases hkind : Sign.kind? d cs with
  | some kind => exact ⟨kind, rfl, (IsFirst.sign hplain hcomment hpoint hkind).first_eq⟩
  | none =>
    by_cases hd : d = '.'
    · subst hd
      obtain ⟨ds, rfl⟩ := Sign.point_of_kind?_eq_none hkind
      exact absurd (.points (Sign.kind?_points.mp hkind)) hother
    · rw [Sign.kind?_eq_none hd hkind] at hself
      cases hself

/-- An operator or a delimiter is written as it is spelled, and no sign in its place would be as long. -/
theorem isLongest_of_first {more : Nat} {faults : List FaultAt} (h : first c cs = .token kind more faults)
    (hkind : kind.isOperator = true) : c :: cs.take more = kind.spelling.toList ∧ kind.IsLongest (c :: cs) := by
  have hliteral : ∀ {s : LiteralScan}, kind ≠ s.kind.token := by
    have hnone : ∀ k : LiteralKind, k.token.isOperator = false := by
      intro k
      cases k <;> rfl
    rintro s rfl
    rw [hnone] at hkind
    cases hkind
  have hfirst := isFirst_first c cs
  rw [h] at hfirst
  generalize hp : Piece.token kind more faults = p at hfirst
  cases hfirst with
  | blank | line | lineComment | blockComment | points | illegal => cases hp
  | number | fraction | char | string | raw => exact absurd (Piece.token.inj hp).1 hliteral
  | sign hc hcomment hpoint hsign =>
    obtain ⟨rfl, rfl, -⟩ := Piece.token.inj hp
    exact ⟨Sign.take_of_kind? hsign, Sign.isLongest_of_kind? hsign⟩
  | word hc =>
    obtain ⟨hword, rfl, -⟩ := Piece.token.inj hp
    have hne : kind ≠ .ident := by
      rintro rfl
      cases hkind
    have hspelling : c :: cs.takeWhile Word.isPart = kind.spelling.toList := by
      rw [hword] at hne ⊢
      rw [Word.spelling_kind hne, String.toList_ofList]
    rw [take_length_takeWhile]
    refine ⟨hspelling, ?_, fun k hk hspelled => ?_⟩
    · rw [← hspelling, List.cons_prefix_cons]
      exact ⟨rfl, List.takeWhile_prefix _⟩
    · -- No sign starts with a letter.
      obtain ⟨d, ds, hd⟩ := k.spelling_eq_cons
      rw [hd] at hspelled
      obtain ⟨rfl, -⟩ := List.cons_prefix_cons.mp hspelled
      exact absurd hc (plain_of_sign hk hd).word

end Piece

namespace Lexer

variable {l l' : Lexer} {t : Token} {n : Nat}

/-- Where a sign is spelled and nothing else starts, the longest such sign is the next token. -/
theorem next_of_spelling {k : Kind} (hk : k ∈ Kind.signs) (hspelled : k.spelling.toList <+: l.rest)
    (hother : ¬ StartsOther l.rest) :
    l.next.1.kind ∈ Kind.signs ∧ l.next.1.kind.IsLongest l.rest ∧ l.next.1.isImplicitSemi = false ∧
      l.next.1.pos = l.pos ∧ l.rest = l.next.1.kind.spelling.toList ++ l.next.2.rest := by
  cases hrest : l.rest with
  | nil =>
    obtain ⟨c, cs, hcs⟩ := k.spelling_eq_cons
    rw [hrest, hcs] at hspelled
    simp at hspelled
  | cons c cs =>
    rw [hrest] at hspelled hother
    obtain ⟨kind, hkind, hpiece⟩ := Piece.first_of_spelling hk hspelled hother
    obtain ⟨t, l', htoken, hnext⟩ := readsToken_next hrest hpiece
    have hsame : t.kind = kind := by
      have htoken := next_of_token hrest hpiece
      rw [hnext] at htoken
      rw [(Prod.mk.inj htoken).1]
    rw [hnext, hsame]
    have hstart := congrArg Span.start htoken.span
    refine ⟨Sign.mem_of_kind? hkind, Sign.isLongest_of_kind? hkind, htoken.written, hstart, ?_⟩
    rw [← hrest, htoken.rest, htoken.left, Sign.take_of_kind? hkind]

/-- Behind the characters `before` the lexer has an operator or a delimiter, which is the longest there. -/
structure Munches (l : Lexer) (t : Token) (before after : List Char) : Prop where
  chars : l.rest = before ++ (t.kind.spelling.toList ++ after)
  start : t.pos = l.base.advance (l.offset + utf8Length before)
  longest : t.kind.IsLongest (t.kind.spelling.toList ++ after)

theorem Munches.skip {before after cs : List Char} (h : l'.Munches t before after) (hrest : l.rest = cs ++ l'.rest)
    (hbase : l'.base = l.base) (hoffset : l'.offset = l.offset + utf8Length cs) :
    l.Munches t (cs ++ before) after where
  chars := by rw [hrest, h.chars, List.append_assoc]
  start := by rw [h.start, hbase, hoffset, utf8Length_append, Nat.add_assoc]
  longest := h.longest

theorem munches_next (hkind : l.next.1.kind.isOperator = true) (hwritten : l.next.1.isImplicitSemi = false) :
    ∃ before, l.Munches l.next.1 before l.next.2.rest := by
  induction l using next_induction with
  | nil l hrest =>
    rw [next_of_nil hrest] at hkind hwritten
    cases hpending : l.pending with
    | true => simp [hpending, Token.isImplicitSemi] at hwritten
    | false =>
      rw [hpending] at hkind
      cases hkind
  | gap l cs after fault l' hgap hnext ih =>
    split at hnext
    · rw [hnext] at hwritten
      cases hwritten
    · rw [hnext] at hkind hwritten ⊢
      obtain ⟨before, h⟩ := ih hkind hwritten
      exact ⟨cs ++ before, h.skip (hgap.left ▸ hgap.rest) hgap.base hgap.offset⟩
  | token l cs after t l' htoken hnext ih =>
    rw [hnext] at hkind ⊢
    obtain ⟨c, more, faults, rfl, hpiece, -⟩ := htoken.piece
    obtain ⟨hspelling, hlongest⟩ := Piece.isLongest_of_first hpiece hkind
    rw [List.take_left] at hspelling
    refine ⟨[], ?_, congrArg Span.start htoken.span, ?_⟩
    · rw [List.nil_append, htoken.rest, htoken.left, hspelling]
    · rw [← hspelling, htoken.left]
      exact hlongest

/-- The lexer after the next `n` tokens. -/
def afterTokens (l : Lexer) : Nat → Lexer
  | 0 => l
  | n + 1 => l.next.2.afterTokens n

theorem munches_of_getElem? (ht : l.tokenize.1[n]? = some t) (hkind : t.kind.isOperator = true)
    (hwritten : t.isImplicitSemi = false) : ∃ before, l.Munches t before (l.afterTokens (n + 1)).rest := by
  induction n generalizing l with
  | zero =>
    obtain rfl : l.next.1 = t := by
      by_cases heof : l.next.1.kind = .eof
      · rw [tokenize_of_eof heof] at ht
        exact Option.some.inj ht
      · rw [tokenize_of_ne_eof heof] at ht
        exact Option.some.inj ht
    exact munches_next hkind hwritten
  | succ n ih =>
    by_cases heof : l.next.1.kind = .eof
    · rw [tokenize_of_eof heof] at ht
      cases ht
    · rw [tokenize_of_ne_eof heof] at ht
      obtain ⟨before, h⟩ := ih ht
      obtain ⟨cs, hrest, hoffset⟩ := read_next l
      exact ⟨cs ++ before, h.skip hrest (base_next l) hoffset⟩

/-- An operator or a delimiter that is written in a text is the longest in its place, and wherever the lexer goes on
with a sign, the longest one is the next token. -/
theorem tokenize_longest (source : String) (base : Pos) :
    (∀ n t, (ofText source base).tokenize.1[n]? = some t → t.kind.isOperator = true → t.isImplicitSemi = false →
      ∃ before after, source.toList = before ++ after ∧ t.pos = base.advance (utf8Length before) ∧
        after = t.kind.spelling.toList ++ ((ofText source base).afterTokens (n + 1)).rest ∧ t.kind.IsLongest after) ∧
    ∀ l : Lexer, ∀ k ∈ Kind.signs, k.spelling.toList <+: l.rest → ¬ StartsOther l.rest →
      l.next.1.kind ∈ Kind.signs ∧ l.next.1.kind.IsLongest l.rest ∧ l.next.1.isImplicitSemi = false ∧
        l.next.1.pos = l.pos ∧ l.rest = l.next.1.kind.spelling.toList ++ l.next.2.rest := by
  refine ⟨fun n t ht hkind hwritten => ?_, fun l k hk hspelled hother => next_of_spelling hk hspelled hother⟩
  obtain ⟨before, h⟩ := munches_of_getElem? ht hkind hwritten
  refine ⟨before, _, h.chars, ?_, rfl, h.longest⟩
  rw [h.start, ofText, Nat.zero_add]

/-- Three signs start like this one, and the next sign is another long one. -/
theorem tokenize_longest_andNotAssign :
    let l := ofText "x&^=<-1" ⟨1⟩
    let t : Token := ⟨.andNotAssign, ⟨⟨2⟩, ⟨5⟩⟩, ""⟩
    l.tokenize.1[1]? = some t ∧
      (∃ before after, "x&^=<-1".toList = before ++ after ∧ t.pos = Pos.advance ⟨1⟩ (utf8Length before) ∧
        after = t.kind.spelling.toList ++ (l.afterTokens 2).rest ∧ t.kind.IsLongest after) ∧
      l.next.2.rest = "&^=<-1".toList ∧ l.next.2.next.1 = t ∧ t.kind.IsLongest l.next.2.rest := by
  intro l t
  have hsecond : l.tokenize.1[1]? = some t := by decide +kernel
  have hrest : l.next.2.rest = "&^=<-1".toList := by decide +kernel
  have hnext : l.next.2.next.1 = t := by decide +kernel
  have hspelled : Kind.and.spelling.toList <+: l.next.2.rest := by
    rw [hrest]
    decide
  have hother : ¬ StartsOther l.next.2.rest := by
    rw [hrest]
    intro h
    cases h
  obtain ⟨htokens, hnexts⟩ := tokenize_longest "x&^=<-1" ⟨1⟩
  obtain ⟨-, hlongest, -⟩ := hnexts l.next.2 .and (by decide) hspelled hother
  rw [hnext] at hlongest
  exact ⟨hsecond, htokens 1 t hsecond (by decide) (by decide), hrest, hnext, hlongest⟩

end Lexer

end RoseLang
