import RoseLang.Proofs.Token.Literals
import RoseLang.Proofs.Token.Tokenize

/-!
# Tokens and lines

Only raw strings go on beyond a line end: every scanner for another token stops before a line feed at the latest.
So the text of a token has no line feed, unless it is that of a raw string or stands for a line end itself, and
neither has the message of a lexical fault.
-/

namespace RoseLang

open Text

/-! ### Scanners -/

theorem Word.isPart_newline : Word.isPart '\n' = false := by decide

theorem Number.isRunPart_newline (radix : Radix) : Number.isRunPart radix '\n' = false := by
  cases radix <;> decide

theorem newline_notMem_takeWhile {p : Char → Bool} (h : p '\n' = false) (cs : List Char) :
    '\n' ∉ cs.takeWhile p := by
  intro hmem
  have hpart := List.all_eq_true.mp List.all_takeWhile _ hmem
  rw [h] at hpart
  cases hpart

/-- A scanner to which it makes no difference what follows a line feed does not go past one. -/
theorem newline_notMem_take (length : List Char → Nat) (hle : ∀ cs, length cs ≤ cs.length)
    (happend : ∀ {tail}, Delimits tail → ∀ cs, length (cs ++ tail) = length cs) (cs : List Char) :
    '\n' ∉ cs.take (length cs) := by
  intro hmem
  obtain ⟨line, rest, rfl, hline⟩ := List.eq_append_cons_of_mem (List.mem_of_mem_take hmem)
  rw [happend (delimits_cons (.inr (.inr rfl))), List.take_append_of_le_length (hle line)] at hmem
  exact hline (List.mem_of_mem_take hmem)

namespace Number

theorem newline_notMem_take_scan (first : Char) (cs : List Char) : '\n' ∉ cs.take (scan first cs).more :=
  newline_notMem_take (fun cs => (scan first cs).more) (more_scan_le first)
    (fun htail cs => by rw [scan_append htail]) cs

theorem newline_notMem_take_scanFraction (cs : List Char) : '\n' ∉ cs.take (scanFraction cs).more :=
  newline_notMem_take (fun cs => (scanFraction cs).more) more_scanFraction_le
    (fun htail cs => by rw [scanFraction_append htail]) cs

end Number

namespace QuotedLiteral

theorem newline_notMem_take_escapeDigits (radix : Radix) (n : Nat) (cs : List Char) :
    '\n' ∉ cs.take (escapeDigits radix n cs).1 := by
  induction n generalizing cs with
  | zero => simp [escapeDigits]
  | succ n ih =>
    cases cs with
    | nil => simp
    | cons c cs =>
      rw [escapeDigits]
      split
      · next hdigit =>
        rw [List.take_succ_cons, List.mem_cons, not_or]
        refine ⟨?_, ih cs⟩
        rintro rfl
        revert hdigit
        cases radix <;> decide
      · simp

theorem newline_notMem_take_escape (cs : List Char) : '\n' ∉ cs.take (escape cs).1 := by
  cases cs with
  | nil => simp
  | cons c cs =>
    by_cases hline : c = '\n'
    · subst hline
      have hnone : (escape ('\n' :: cs)).1 = 0 := rfl
      rw [hnone, List.take_zero]
      exact List.not_mem_nil
    · have hone : '\n' ∉ (c :: cs).take 1 := by simpa using Ne.symm hline
      rw [escape]
      split
      · exact hone
      · split
        · exact newline_notMem_take_escapeDigits .octal 3 (c :: cs)
        · split
          · rw [List.take_succ_cons, List.mem_cons, not_or]
            exact ⟨Ne.symm hline, newline_notMem_take_escapeDigits .hexadecimal _ cs⟩
          · exact hone

theorem newline_notMem_take_body (quote : Char) (offset : Nat) (cs : List Char) :
    '\n' ∉ cs.take (body quote offset cs).length := by
  fun_induction body quote offset cs with
  | case1 offset => simp
  | case2 offset cs => simp
  | case3 offset cs hline => simpa using Ne.symm hline
  | case4 offset cs length fault hescape stop next hline hquote ih =>
    have hread := newline_notMem_take_escape cs
    rw [hescape] at hread
    rw [Nat.add_assoc, Nat.add_comm 1, List.take_succ_cons, List.take_add, List.mem_cons, List.mem_append]
    rintro (hline' | hmem | hmem)
    · cases hline'
    · exact hread hmem
    · exact ih hmem
  | case5 offset c cs hline hquote hescape next ih =>
    rw [Nat.add_comm, List.take_succ_cons, List.mem_cons, not_or]
    exact ⟨Ne.symm hline, ih⟩

end QuotedLiteral

/-! ### Messages -/

theorem newline_notMem_hexUpper (width n : Nat) : '\n' ∉ (hexUpper width n).toList := by
  have hdigit : ∀ d < 16, (Nat.digitChar d).toUpper ≠ '\n' := by decide
  have hdigits : '\n' ∉ (Nat.toDigits 16 n).map Char.toUpper := by
    induction n using Nat.strongRecOn with
    | ind n ih =>
      rw [Nat.toDigits_eq_if (by decide)]
      split
      · next hlt => simpa using (hdigit n hlt).symm
      · next hge =>
        rw [List.map_append, List.mem_append, not_or]
        exact ⟨ih _ (Nat.div_lt_self (by omega) (by decide)),
          by simpa using (hdigit (n % 16) (Nat.mod_lt n (by decide))).symm⟩
  rw [hexUpper, String.toList_ofList, List.mem_append, not_or]
  exact ⟨by simp, hdigits⟩

/-- Only an invalid digit could be a line feed, and is not when it is a character of a number. -/
theorem LexicalFault.newline_notMem_message {fault : LexicalFault} (h : ∀ radix, fault ≠ .invalidDigit '\n' radix) :
    '\n' ∉ fault.message.toList := by
  have hradix : ∀ radix : Radix, '\n' ∉ radix.name.toList := by
    intro radix
    cases radix <;> decide
  cases fault with
  | illegalCharacter c =>
    let number := "illegal character U+" ++ hexUpper 4 c.toNat
    have hnumber : '\n' ∉ number.toList := by
      rw [String.toList_append, List.mem_append, not_or]
      exact ⟨by decide, newline_notMem_hexUpper 4 c.toNat⟩
    show '\n' ∉ (if isControl c then number else number ++ " '" ++ String.singleton c ++ "'").toList
    split
    · exact hnumber
    · next hplain =>
      have hc : '\n' ≠ c := by
        rintro rfl
        exact hplain (by decide)
      simp [hnumber, hc]
  | noDigits radix =>
    show '\n' ∉ (radix.name ++ " literal has no digits").toList
    simp [hradix radix]
  | invalidDigit digit radix =>
    have hdigit : '\n' ≠ digit := by
      rintro rfl
      exact h radix rfl
    show '\n' ∉ ("invalid digit '" ++ String.singleton digit ++ "' in " ++ radix.name ++ " literal").toList
    simp [hdigit, hradix radix]
  | doubleDot | openComment | emptyExponent | openLiteral | charCount | openEscape | invalidEscape =>
    decide

/-! ### Faults -/

/-- What can be wrong with a token. The digit that does not belong into a number is one of its characters. -/
def LexicalFault.OfToken : LexicalFault → Prop
  | illegalCharacter _ | doubleDot | openComment => False
  | invalidDigit digit _ => digit ≠ '\n'
  | _ => True

theorem LexicalFault.OfToken.newline_notMem_message {fault : LexicalFault} (h : fault.OfToken) :
    '\n' ∉ fault.message.toList :=
  LexicalFault.newline_notMem_message fun radix heq => by
    subst heq
    exact h rfl

namespace Number

theorem ofToken_strayDigit? {radix radix' radix'' : Radix} {cs : List Char} {fault : LexicalFault}
    (h : (strayDigit? radix (digitRun radix' cs)).map (.invalidDigit · radix'') = some fault) : fault.OfToken := by
  obtain ⟨d, hd, rfl⟩ := Option.map_eq_some_iff.mp h
  rintro rfl
  exact newline_notMem_takeWhile (isRunPart_newline radix') cs (List.mem_of_find?_eq_some hd)

theorem ofToken_faults_scanned {kind : LiteralKind} {more : Nat} {fault : Option LexicalFault}
    (h : ∀ x, fault = some x → x.OfToken) : ∀ f ∈ (scanned kind more fault).faults, f.fault.OfToken := by
  intro f hf
  obtain ⟨x, hx, rfl⟩ := Option.map_eq_some_iff.mp (Option.mem_toList.mp hf)
  exact h x hx

theorem ofToken_emptyExponent {lacking : Bool} {fault : LexicalFault}
    (h : (if lacking then some .emptyExponent else none) = some fault) : fault.OfToken := by
  obtain ⟨-, rfl⟩ := Option.ite_some_none_eq_some.mp h
  trivial

theorem ofToken_faults_scanUnmarked (first : Char) (cs : List Char) :
    ∀ f ∈ (scanUnmarked first cs).faults, f.fault.OfToken := by
  rw [scanUnmarked_eq]
  dsimp only
  split
  · refine ofToken_faults_scanned fun x hx => ?_
    split at hx
    · exact ofToken_strayDigit? hx
    · cases hx
  · exact ofToken_faults_scanned fun x => ofToken_emptyExponent

theorem ofToken_faults_scan (first : Char) (cs : List Char) : ∀ f ∈ (scan first cs).faults, f.fault.OfToken := by
  rw [scan.eq_def]
  split
  · split
    · refine ofToken_faults_scanned fun x hx => ?_
      split at hx
      · exact ofToken_strayDigit? hx
      · cases hx
        trivial
    · exact ofToken_faults_scanUnmarked _ _
  · exact ofToken_faults_scanUnmarked _ _

theorem ofToken_faults_scanFraction (cs : List Char) : ∀ f ∈ (scanFraction cs).faults, f.fault.OfToken :=
  ofToken_faults_scanned fun _ => ofToken_emptyExponent

end Number

namespace QuotedLiteral

theorem ofToken_escapeDigits {radix : Radix} {n : Nat} {cs : List Char} {fault : LexicalFault}
    (h : (escapeDigits radix n cs).2 = some fault) : fault.OfToken := by
  induction n generalizing cs with
  | zero => cases h
  | succ n ih =>
    cases cs with
    | nil =>
      cases h
      trivial
    | cons c cs =>
      rw [escapeDigits] at h
      split at h
      · exact ih h
      · cases h
        trivial

theorem ofToken_escape {cs : List Char} {fault : LexicalFault} (h : (escape cs).2 = some fault) : fault.OfToken := by
  cases cs with
  | nil =>
    cases h
    trivial
  | cons c cs =>
    rw [escape] at h
    split at h
    · cases h
    · split at h
      · exact ofToken_escapeDigits h
      · split at h
        · exact ofToken_escapeDigits h
        · split at h
          · cases h
            trivial
          · cases h
            trivial

theorem ofToken_faults_body (quote : Char) (offset : Nat) (cs : List Char) :
    ∀ f ∈ (body quote offset cs).faults, f.fault.OfToken := by
  fun_induction body quote offset cs with
  | case1 offset => simp
  | case2 offset cs => simp
  | case3 offset cs hline => simp
  | case4 offset cs length fault hescape stop next hline hquote ih =>
    intro f hf
    rcases List.mem_append.mp hf with hf | hf
    · obtain ⟨x, hx, rfl⟩ := Option.map_eq_some_iff.mp (Option.mem_toList.mp hf)
      have hfault : (escape cs).2 = some x := by rw [hescape, hx]
      exact ofToken_escape hfault
    · exact ih f hf
  | case5 offset c cs hline hquote hescape next ih => exact ih

theorem ofToken_faults_scan (kind : LiteralKind) (quote : Char) (cs : List Char) :
    ∀ f ∈ (scan kind quote cs).faults, f.fault.OfToken := by
  intro f hf
  rcases List.mem_append.mp hf with hf | hf
  · exact ofToken_faults_body quote 1 cs f hf
  · obtain ⟨x, hx, rfl⟩ := Option.map_eq_some_iff.mp (Option.mem_toList.mp hf)
    split at hx
    · cases hx
      trivial
    · split at hx
      · cases hx
        trivial
      · cases hx

theorem ofToken_faults_scanRaw (cs : List Char) : ∀ f ∈ (scanRaw cs).faults, f.fault.OfToken := by
  intro f hf
  rw [scanRaw] at hf
  split at hf
  · cases hf
  · obtain rfl := List.mem_singleton.mp hf
    trivial

end QuotedLiteral

/-! ### Pieces -/

theorem Kind.newline_notMem_spelling (kind : Kind) : '\n' ∉ kind.spelling.toList := by
  cases kind <;> decide

namespace Piece

variable {c : Char} {cs : List Char}

/-- A token ends on its line, unless it is a raw string, and has the faults of a token. -/
theorem newline_notMem_token {kind : Kind} {more : Nat} {faults : List FaultAt}
    (h : first c cs = .token kind more faults) :
    (kind ≠ .rawString → '\n' ∉ c :: cs.take more) ∧ ∀ f ∈ faults, f.fault.OfToken := by
  have hfirst := isFirst_first c cs
  generalize first c cs = p at h hfirst
  have hstart : ∀ {line : List Char}, c ≠ '\n' → '\n' ∉ line → '\n' ∉ c :: line := fun hc hline =>
    List.not_mem_cons_of_ne_of_not_mem hc.symm hline
  cases hfirst with
  | blank | line | lineComment | blockComment | points | illegal => cases h
  | word hc =>
    cases h
    have htake := List.prefix_iff_eq_take.mp (List.takeWhile_prefix (l := cs) Word.isPart)
    rw [← htake]
    refine ⟨fun _ => hstart ?_ (newline_notMem_takeWhile Word.isPart_newline cs), by simp⟩
    rintro rfl
    revert hc
    decide
  | number hword hc =>
    obtain ⟨-, rfl, rfl⟩ := ofLiteral_eq_token.mp h
    refine ⟨fun _ => hstart ?_ (Number.newline_notMem_take_scan c cs), Number.ofToken_faults_scan c cs⟩
    rintro rfl
    revert hc
    decide
  | char hc =>
    obtain ⟨-, rfl, rfl⟩ := ofLiteral_eq_token.mp h
    subst hc
    exact ⟨fun _ => hstart (by decide) (QuotedLiteral.newline_notMem_take_body _ 1 cs),
      QuotedLiteral.ofToken_faults_scan _ _ cs⟩
  | string hc =>
    obtain ⟨-, rfl, rfl⟩ := ofLiteral_eq_token.mp h
    subst hc
    exact ⟨fun _ => hstart (by decide) (QuotedLiteral.newline_notMem_take_body _ 1 cs),
      QuotedLiteral.ofToken_faults_scan _ _ cs⟩
  | raw hc =>
    obtain ⟨rfl, rfl, rfl⟩ := ofLiteral_eq_token.mp h
    refine ⟨fun hne => absurd ?_ hne, QuotedLiteral.ofToken_faults_scanRaw cs⟩
    rw [QuotedLiteral.kind_scanRaw]
    rfl
  | fraction hc hcs =>
    obtain ⟨-, rfl, rfl⟩ := ofLiteral_eq_token.mp h
    subst hc
    exact ⟨fun _ => hstart (by decide) (Number.newline_notMem_take_scanFraction cs),
      Number.ofToken_faults_scanFraction cs⟩
  | sign hc hcomment hpoint hkind =>
    cases h
    rw [Sign.take_of_kind? hkind]
    exact ⟨fun _ => kind.newline_notMem_spelling, by simp⟩

theorem newline_notMem_gap {more : Nat} {breaks : Bool} {fault : LexicalFault}
    (h : first c cs = .gap more breaks (some fault)) : '\n' ∉ fault.message.toList := by
  refine LexicalFault.newline_notMem_message fun radix heq => ?_
  subst heq
  have hfirst := isFirst_first c cs
  generalize first c cs = p at h hfirst
  cases hfirst with
  | blockComment =>
    obtain ⟨-, -, hfault⟩ := gap.inj h
    split at hfault
    · cases hfault
    · cases hfault
  | _ => cases h

end Piece

/-! ### Texts -/

namespace Lexer

/-- No message of a lexical error has a line feed. -/
theorem newline_notMem_message (l : Lexer) (h : ∀ e ∈ l.errors, '\n' ∉ e.message.toList) :
    ∀ e ∈ l.tokenize.2, '\n' ∉ e.message.toList := by
  induction l using tokenize_induction with
  | nil l hrest =>
    rw [tokenize_of_nil hrest]
    exact h
  | gap l cs after fault l' hgap ih =>
    rw [hgap.tokenize]
    refine ih fun e he => ?_
    rw [hgap.errors] at he
    rcases List.mem_append.mp he with he | he
    · exact h e he
    · obtain ⟨f, rfl, rfl⟩ := Option.map_eq_some_iff.mp (Option.mem_toList.mp he)
      obtain ⟨c, more, breaks, -, hpiece⟩ := hgap.piece
      exact Piece.newline_notMem_gap hpiece
  | token l cs after t l' htoken ih =>
    rw [htoken.tokenize]
    refine ih fun e he => ?_
    obtain ⟨c, more, faults, -, hpiece, herrors⟩ := htoken.piece
    rw [herrors] at he
    rcases List.mem_append.mp he with he | he
    · exact h e he
    · obtain ⟨f, hf, rfl⟩ := List.mem_map.mp he
      exact ((Piece.newline_notMem_token hpiece).2 f hf).newline_notMem_message

/-- The text of a token has no line feed, unless the token is a raw string or stands for a line end. -/
theorem newline_notMem_text (l : Lexer) :
    ∀ t ∈ l.tokenize.1, t.kind ≠ .rawString → t.kind ≠ .semi → '\n' ∉ t.text.toList := by
  induction l using tokenize_induction with
  | nil l hrest =>
    rw [tokenize_of_nil hrest]
    intro t ht _ hsemi
    rcases List.mem_append.mp ht with ht | ht
    · split at ht
      · obtain rfl := List.mem_singleton.mp ht
        exact absurd rfl hsemi
      · cases ht
    · obtain rfl := List.mem_singleton.mp ht
      simp
  | gap l cs after fault l' hgap ih =>
    rw [hgap.tokenize]
    intro t ht hraw hsemi
    rcases List.mem_append.mp ht with ht | ht
    · split at ht
      · obtain rfl := List.mem_singleton.mp ht
        exact absurd rfl hsemi
      · cases ht
    · exact ih t ht hraw hsemi
  | token l cs after t l' htoken ih =>
    rw [htoken.tokenize]
    intro u hu hraw hsemi
    rcases List.mem_cons.mp hu with rfl | hu
    · obtain ⟨c, more, faults, rfl, hpiece, -⟩ := htoken.piece
      have hline := (Piece.newline_notMem_token hpiece).1 hraw
      rw [List.take_left] at hline
      rw [htoken.text]
      split
      · rwa [String.toList_ofList]
      · simp
    · exact ih u hu hraw hsemi

end Lexer

end RoseLang
