import Mathlib.Data.List.Infix
import RoseLang.Token.Piece

/-!
# Where pieces end

No scan goes past the end of the text, and what follows a token makes no difference to it if that starts
with a space, a closing parenthesis or a line feed: no scanner goes past these characters, except inside a
quoted literal, which ends at its own quote. A quoted literal without a fault is read from its own characters,
whatever the text that starts with them goes on with. Which scanner reads a piece is told by its first two
characters: `Piece.IsFirst` has one case for each of them.
-/

namespace RoseLang

theorem take_eq_of_isPrefix {α : Type} {as bs : List α} {n : Nat} (hn : n ≤ as.length) (h : as.take n <+: bs) :
    bs.take n = as.take n := by
  rw [List.prefix_iff_eq_take.mp h, List.length_take_of_le hn]

theorem take_length_takeWhile {α : Type} (p : α → Bool) (as : List α) :
    as.take (as.takeWhile p).length = as.takeWhile p :=
  (List.prefix_iff_eq_take.mp (List.takeWhile_prefix p)).symm

theorem takeWhile_of_isPrefix {α : Type} {p : α → Bool} {as bs : List α} (hstop : (as.takeWhile p).length < as.length)
    (h : as.take ((as.takeWhile p).length + 1) <+: bs) : bs.takeWhile p = as.takeWhile p := by
  induction as generalizing bs with
  | nil => cases hstop
  | cons a as ih =>
    rw [List.take_succ_cons] at h
    obtain ⟨bs, rfl, hrest⟩ := List.cons_prefix_iff.mp h
    cases ha : p a with
    | false => rw [List.takeWhile_cons_of_neg (by simp [ha]), List.takeWhile_cons_of_neg (by simp [ha])]
    | true =>
      rw [List.takeWhile_cons_of_pos ha, List.length_cons] at hstop hrest
      rw [List.takeWhile_cons_of_pos ha, List.takeWhile_cons_of_pos ha, ih (Nat.lt_of_succ_lt_succ hstop) hrest]

/-- A run that ends before the first of two texts does so before the second, unless that goes on with it. -/
theorem takeWhile_swap {α : Type} {p : α → Bool} {as tail tail' : List α}
    (hstop : (∀ a ∈ tail.head?, p a = false) → ∀ a ∈ tail'.head?, p a = false)
    (hle : ((as ++ tail).takeWhile p).length ≤ as.length) : (as ++ tail').takeWhile p = (as ++ tail).takeWhile p := by
  have hnil : ∀ bs : List α, bs.takeWhile p = [] ↔ ∀ a ∈ bs.head?, p a = false := by
    intro bs
    cases bs with
    | nil => simp
    | cons b bs => cases hb : p b <;> simp [hb]
  induction as with
  | nil =>
    have hnone := List.length_eq_zero_iff.mp (Nat.le_zero.mp hle)
    rw [List.nil_append] at hnone ⊢
    rw [List.nil_append, hnone, hnil]
    exact hstop ((hnil tail).mp hnone)
  | cons a as ih =>
    rw [List.cons_append, List.takeWhile_cons] at hle ⊢
    rw [List.cons_append, List.takeWhile_cons]
    split
    · next ha =>
      rw [if_pos ha, List.length_cons, List.length_cons] at hle
      rw [ih (Nat.le_of_succ_le_succ hle)]
    · rfl

/-- The text ends, or goes on with a character that ends every token. -/
def Delimits (tail : List Char) : Prop := ∀ c ∈ tail.head?, c = ' ' ∨ c = ')' ∨ c = '\n'

theorem delimits_nil : Delimits [] := by
  intro c hc
  cases hc

theorem delimits_cons {c : Char} {cs : List Char} (h : c = ' ' ∨ c = ')' ∨ c = '\n') : Delimits (c :: cs) := by
  intro d hd
  cases hd
  exact h

namespace Delimits

variable {tail : List Char}

theorem takeWhile_append {p : Char → Bool} (h : Delimits tail) (hspace : p ' ' = false)
    (hparen : p ')' = false) (hline : p '\n' = false) (cs : List Char) : (cs ++ tail).takeWhile p = cs.takeWhile p := by
  induction cs with
  | nil =>
    cases tail with
    | nil => rfl
    | cons c tail =>
      have hc : p c = false := by
        rcases h c rfl with rfl | rfl | rfl
        · exact hspace
        · exact hparen
        · exact hline
      rw [List.nil_append, List.takeWhile_cons, hc]
      rfl
  | cons c cs ih => rw [List.cons_append, List.takeWhile_cons, List.takeWhile_cons, ih]

theorem head?_any_append {p : Char → Bool} (h : Delimits tail) (hspace : p ' ' = false)
    (hparen : p ')' = false) (hline : p '\n' = false) (cs : List Char) : (cs ++ tail).head?.any p = cs.head?.any p := by
  cases cs with
  | nil =>
    cases tail with
    | nil => rfl
    | cons c tail =>
      rcases h c rfl with rfl | rfl | rfl
      · simpa using hspace
      · simpa using hparen
      · simpa using hline
  | cons c cs => rfl

theorem head?_append_iff {d : Char} (h : Delimits tail) (hspace : d ≠ ' ') (hparen : d ≠ ')') (hline : d ≠ '\n')
    (cs : List Char) : (cs ++ tail).head? = some d ↔ cs.head? = some d := by
  cases cs with
  | nil =>
    constructor
    · intro hd
      rcases h d hd with rfl | rfl | rfl
      · exact absurd rfl hspace
      · exact absurd rfl hparen
      · exact absurd rfl hline
    · intro hd
      cases hd
  | cons c cs => rfl

end Delimits

/-! ### Numbers -/

namespace Number

/-- The length of the fraction at the start of `cs`, its point included. -/
def fractionLength : List Char → Nat
  | '.' :: ds => 1 + (digitRun .decimal ds).length
  | _ => 0

/-- The length of the sign at the start of `cs`. -/
def signLength (cs : List Char) : Nat := if cs.head?.any (fun s => s = '+' || s = '-') then 1 else 0

theorem scanUnmarked_eq (first : Char) (cs : List Char) :
    scanUnmarked first cs =
      let run := digitRun .decimal cs
      let rest := cs.drop run.length
      let fraction := fractionLength rest
      let power := exponent (rest.drop fraction)
      if fraction = 0 ∧ power.1 = 0 then
        scanned .int (run.length + fraction + power.1)
          (if first = '0' then (strayDigit? .octal run).map (.invalidDigit · .octal) else none)
      else
        scanned .float (run.length + fraction + power.1) (if power.2 then some .emptyExponent else none) := rfl

theorem exponent_cons_of_mark {c : Char} (he : c = 'e' ∨ c = 'E') (cs : List Char) :
    exponent (c :: cs) =
      (1 + signLength cs + (digitRun .decimal (cs.drop (signLength cs))).length,
        !hasDigit (digitRun .decimal (cs.drop (signLength cs)))) := by
  rw [exponent, if_pos he]
  rfl

theorem more_scanUnmarked (first : Char) (cs : List Char) :
    (scanUnmarked first cs).more =
      (digitRun .decimal cs).length + fractionLength (cs.drop (digitRun .decimal cs).length) +
        (exponent ((cs.drop (digitRun .decimal cs).length).drop
          (fractionLength (cs.drop (digitRun .decimal cs).length)))).1 := by
  rw [scanUnmarked_eq]
  dsimp only
  split <;> rfl

theorem length_digitRun_le (radix : Radix) (cs : List Char) : (digitRun radix cs).length ≤ cs.length :=
  (List.takeWhile_prefix _).length_le

theorem fractionLength_le (cs : List Char) : fractionLength cs ≤ cs.length := by
  rw [fractionLength.eq_def]
  split
  · next ds =>
    have := length_digitRun_le .decimal ds
    rw [List.length_cons]
    omega
  · exact Nat.zero_le _

theorem signLength_le (cs : List Char) : signLength cs ≤ cs.length := by
  cases cs with
  | nil => exact Nat.le_refl _
  | cons d cs =>
    rw [signLength, List.length_cons]
    split <;> omega

theorem exponent_le (cs : List Char) : (exponent cs).1 ≤ cs.length := by
  cases cs with
  | nil => exact Nat.zero_le _
  | cons c cs =>
    by_cases he : c = 'e' ∨ c = 'E'
    · have hsign := signLength_le cs
      have hrun := length_digitRun_le .decimal (cs.drop (signLength cs))
      rw [List.length_drop] at hrun
      rw [exponent_cons_of_mark he, List.length_cons]
      dsimp only
      omega
    · rw [exponent, if_neg he]
      exact Nat.zero_le _

theorem more_scanned (kind : LiteralKind) (more : Nat) (fault : Option LexicalFault) :
    (scanned kind more fault).more = more := rfl

theorem more_scanUnmarked_le (first : Char) (cs : List Char) : (scanUnmarked first cs).more ≤ cs.length := by
  have hrun := length_digitRun_le .decimal cs
  have hfraction := fractionLength_le (cs.drop (digitRun .decimal cs).length)
  have hpower := exponent_le
    ((cs.drop (digitRun .decimal cs).length).drop (fractionLength (cs.drop (digitRun .decimal cs).length)))
  rw [List.length_drop] at hfraction hpower
  rw [List.length_drop] at hpower
  rw [more_scanUnmarked]
  omega

theorem scan_nil (first : Char) : scan first [] = scanUnmarked first [] := by
  rw [scan.eq_def]
  split
  · next heq => cases heq
  · rfl

theorem scan_of_ne_zero {first : Char} (h : first ≠ '0') (cs : List Char) :
    scan first cs = scanUnmarked first cs := by
  rw [scan.eq_def]
  split
  · exact absurd rfl h
  · rfl

theorem more_scan_le (first : Char) (cs : List Char) : (scan first cs).more ≤ cs.length := by
  rw [scan.eq_def]
  split
  · next mark ds =>
    split
    · have := length_digitRun_le ‹Radix› ds
      rw [scanMarked, more_scanned, List.length_cons]
      omega
    · exact more_scanUnmarked_le _ _
  · exact more_scanUnmarked_le _ _

theorem more_scanFraction_le (cs : List Char) : (scanFraction cs).more ≤ cs.length := by
  have hrun := length_digitRun_le .decimal cs
  have hpower := exponent_le (cs.drop (digitRun .decimal cs).length)
  rw [List.length_drop] at hpower
  rw [scanFraction]
  dsimp only
  rw [more_scanned]
  omega

/-! Where a number ends is decided by its own characters and by the next one. -/

/-- Whether a number may go on with the character. -/
def goesOn (c : Char) : Bool :=
  isRunPart .hexadecimal c || (markedRadix? c).isSome || c = '.' || c = '+' || c = '-'

/-- The second text starts with no character that a number may go on with, unless the first one starts with it. -/
def EndsToo (tail tail' : List Char) : Prop := ∀ c ∈ tail'.head?, goesOn c = true → c ∈ tail.head?

theorem goesOn_of_isRunPart {radix : Radix} {c : Char} (h : isRunPart radix c = true) : goesOn c = true := by
  have hdigit : ∀ radix : Radix, isDigit radix c = true → isDigit .hexadecimal c = true := by
    intro radix h
    rw [isDigit] at h ⊢
    cases hvalue : digitValue? c with
    | none =>
      rw [hvalue] at h
      cases h
    | some value =>
      rw [hvalue] at h
      have hlt : value < radix.value := of_decide_eq_true h
      have hle : radix.value ≤ Radix.hexadecimal.value := by cases radix <;> decide
      exact decide_eq_true (Nat.lt_of_lt_of_le hlt hle)
  have hpart : isRunPart .hexadecimal c = true := by
    rw [isRunPart, Bool.or_eq_true, Bool.or_eq_true] at h ⊢
    rcases h with (h | h) | h
    · exact .inl (.inl h)
    · exact .inl (.inr (hdigit _ h))
    · exact .inr h
  rw [goesOn, hpart]
  rfl

namespace EndsToo

variable {tail tail' cs : List Char} (h : EndsToo tail tail')
include h

/-- Of a property of characters that a number may go on with. -/
theorem stop {p : Char → Bool} (hp : ∀ c, p c = true → goesOn c = true)
    (hstop : ∀ c ∈ tail.head?, p c = false) : ∀ c ∈ tail'.head?, p c = false := by
  intro c hc
  cases hpc : p c with
  | false => rfl
  | true => exact absurd hpc (by simp [hstop c (h c hc (hp c hpc))])

theorem digitRun {radix : Radix} (hle : (digitRun radix (cs ++ tail)).length ≤ cs.length) :
    digitRun radix (cs ++ tail') = digitRun radix (cs ++ tail) :=
  takeWhile_swap (h.stop fun _ => goesOn_of_isRunPart) hle

theorem fractionLength (hle : fractionLength (cs ++ tail) ≤ cs.length) :
    fractionLength (cs ++ tail') = fractionLength (cs ++ tail) := by
  have hnone : ∀ ds : List Char, Number.fractionLength ds = 0 ↔ ∀ c ∈ ds.head?, decide (c = '.') = false := by
    intro ds
    rw [fractionLength.eq_def]
    split
    · simp
    · next hpoint =>
      cases ds with
      | nil => simp
      | cons d ds => simpa using fun hd : d = '.' => hpoint ds (by rw [hd])
  cases cs with
  | nil =>
    have hzero : Number.fractionLength tail = 0 := Nat.le_zero.mp hle
    rw [List.nil_append, List.nil_append, hzero, hnone]
    exact h.stop (by simp [goesOn]) ((hnone tail).mp hzero)
  | cons c cs =>
    by_cases hpoint : c = '.'
    · subst hpoint
      rw [List.cons_append, Number.fractionLength, List.length_cons] at hle
      rw [List.cons_append, List.cons_append, Number.fractionLength, Number.fractionLength, h.digitRun (by omega)]
    · have hzero : ∀ ds, Number.fractionLength (c :: ds) = 0 := fun ds => (hnone _).mpr (by simpa using hpoint)
      rw [List.cons_append, List.cons_append, hzero, hzero]

theorem signLength (hle : signLength (cs ++ tail) ≤ cs.length) :
    signLength (cs ++ tail') = signLength (cs ++ tail) := by
  cases cs with
  | nil =>
    have hnone : ∀ ds : List Char, Number.signLength ds = 0 ↔ ∀ c ∈ ds.head?, (c = '+' || c = '-') = false := by
      intro ds
      cases ds <;> simp [Number.signLength]
    have hzero : Number.signLength tail = 0 := Nat.le_zero.mp hle
    rw [List.nil_append, List.nil_append, hzero, hnone]
    exact h.stop (by simp [goesOn]) ((hnone tail).mp hzero)
  | cons c cs => rfl

theorem exponent (hle : (exponent (cs ++ tail)).1 ≤ cs.length) : exponent (cs ++ tail') = exponent (cs ++ tail) := by
  have hnone : ∀ {c : Char}, ¬ (c = 'e' ∨ c = 'E') → ∀ ds, Number.exponent (c :: ds) = (0, false) := by
    intro c hc ds
    rw [Number.exponent, if_neg hc]
  cases cs with
  | nil =>
    have hstart : ∀ ds : List Char, (Number.exponent ds).1 = 0 ↔ ∀ c ∈ ds.head?, (c = 'e' || c = 'E') = false := by
      intro ds
      cases ds with
      | nil => simp [Number.exponent]
      | cons c ds =>
        by_cases hc : c = 'e' ∨ c = 'E'
        · simpa [exponent_cons_of_mark hc] using or_iff_not_imp_left.mp hc
        · simpa [hnone hc] using not_or.mp hc
    have hall : ∀ ds : List Char, (Number.exponent ds).1 = 0 → Number.exponent ds = (0, false) := by
      intro ds hzero
      cases ds with
      | nil => rfl
      | cons c ds =>
        have hc := (hstart _).mp hzero c rfl
        exact hnone (by simpa using hc) ds
    have hzero : (Number.exponent tail).1 = 0 := Nat.le_zero.mp hle
    rw [List.nil_append, List.nil_append, hall tail hzero]
    exact hall tail' ((hstart tail').mpr (h.stop (by simp [goesOn]; decide) ((hstart tail).mp hzero)))
  | cons c cs =>
    by_cases hc : c = 'e' ∨ c = 'E'
    · rw [List.cons_append, exponent_cons_of_mark hc, List.length_cons] at hle
      dsimp only at hle
      have hsign : Number.signLength (cs ++ tail) ≤ cs.length := by omega
      rw [List.drop_append_of_le_length hsign] at hle
      rw [List.cons_append, List.cons_append, exponent_cons_of_mark hc, exponent_cons_of_mark hc, h.signLength hsign,
        List.drop_append_of_le_length hsign, List.drop_append_of_le_length hsign,
        h.digitRun (by rw [List.length_drop]; omega)]
    · rw [List.cons_append, List.cons_append, hnone hc, hnone hc]

theorem scanUnmarked {first : Char} (hle : (scanUnmarked first (cs ++ tail)).more ≤ cs.length) :
    scanUnmarked first (cs ++ tail') = scanUnmarked first (cs ++ tail) := by
  rw [more_scanUnmarked] at hle
  rw [scanUnmarked_eq, scanUnmarked_eq]
  dsimp only
  rw [h.digitRun (by omega)]
  generalize Number.digitRun .decimal (cs ++ tail) = run at hle ⊢
  have hrun : run.length ≤ cs.length := by omega
  have hrest : (cs.drop run.length).length = cs.length - run.length := List.length_drop
  simp only [List.drop_append_of_le_length hrun] at hle ⊢
  generalize cs.drop run.length = rest at hle hrest ⊢
  rw [h.fractionLength (by omega)]
  generalize Number.fractionLength (rest ++ tail) = fraction at hle ⊢
  have hfraction : fraction ≤ rest.length := by omega
  simp only [List.drop_append_of_le_length hfraction] at hle ⊢
  rw [h.exponent (by rw [List.length_drop]; omega)]

theorem scan {first : Char} (hle : (scan first (cs ++ tail)).more ≤ cs.length) :
    scan first (cs ++ tail') = scan first (cs ++ tail) := by
  by_cases hzero : first = '0'
  · subst hzero
    cases cs with
    | nil =>
      have hunmarked : ∀ ds : List Char, (∀ c ∈ ds.head?, (markedRadix? c).isSome = false) →
          Number.scan '0' ds = Number.scanUnmarked '0' ds := by
        intro ds hds
        cases ds with
        | nil => exact scan_nil '0'
        | cons c ds => rw [Number.scan, Option.not_isSome_iff_eq_none.mp (Bool.eq_false_iff.mp (hds c rfl))]
      rw [List.nil_append] at hle
      have htail : ∀ c ∈ tail.head?, (markedRadix? c).isSome = false := by
        intro c hc
        obtain ⟨ds, rfl⟩ := List.head?_eq_some_iff.mp hc
        cases hmark : markedRadix? c with
        | none => rfl
        | some radix =>
          rw [Number.scan, hmark] at hle
          dsimp only at hle
          rw [scanMarked, more_scanned] at hle
          exact absurd hle (by simp)
      have htail' := h.stop (fun c hc => by simp [goesOn, hc]) htail
      rw [hunmarked tail htail, ← List.nil_append tail] at hle
      rw [List.nil_append, List.nil_append, hunmarked tail htail, hunmarked tail' htail']
      exact h.scanUnmarked hle
    | cons mark ds =>
      rw [List.cons_append, Number.scan] at hle
      rw [List.cons_append, List.cons_append, Number.scan, Number.scan]
      cases hmark : markedRadix? mark with
      | none =>
        rw [hmark] at hle
        dsimp only at hle
        rw [← List.cons_append] at hle ⊢
        exact h.scanUnmarked hle
      | some radix =>
        rw [hmark] at hle
        dsimp only at hle ⊢
        rw [scanMarked, more_scanned, List.length_cons] at hle
        rw [scanMarked, scanMarked, h.digitRun (by omega)]
  · rw [scan_of_ne_zero hzero] at hle
    rw [scan_of_ne_zero hzero, scan_of_ne_zero hzero, h.scanUnmarked hle]

theorem scanFraction (hle : (scanFraction (cs ++ tail)).more ≤ cs.length) :
    scanFraction (cs ++ tail') = scanFraction (cs ++ tail) := by
  rw [Number.scanFraction] at hle
  dsimp only at hle
  rw [more_scanned] at hle
  rw [Number.scanFraction, Number.scanFraction]
  dsimp only
  rw [h.digitRun (by omega)]
  generalize Number.digitRun .decimal (cs ++ tail) = run at hle ⊢
  have hrun : run.length ≤ cs.length := by omega
  rw [List.drop_append_of_le_length hrun] at hle
  rw [List.drop_append_of_le_length hrun, List.drop_append_of_le_length hrun,
    h.exponent (by rw [List.length_drop]; omega)]

end EndsToo

theorem endsToo_of_delimits {tail : List Char} (htail : Delimits tail) (cs : List Char) : EndsToo cs tail := by
  intro c hc hgoesOn
  rcases htail c hc with rfl | rfl | rfl <;> cases hgoesOn

theorem endsToo_nil (tail : List Char) : EndsToo tail [] := fun c hc => by cases hc

section
variable {tail : List Char} (htail : Delimits tail)
include htail

theorem scan_append (first : Char) (cs : List Char) : scan first (cs ++ tail) = scan first cs := by
  have hle : (scan first (cs ++ [])).more ≤ cs.length := by
    rw [List.append_nil]
    exact more_scan_le first cs
  rw [(endsToo_of_delimits htail []).scan hle, List.append_nil]

theorem scanFraction_append (cs : List Char) : scanFraction (cs ++ tail) = scanFraction cs := by
  have hle : (scanFraction (cs ++ [])).more ≤ cs.length := by
    rw [List.append_nil]
    exact more_scanFraction_le cs
  rw [(endsToo_of_delimits htail []).scanFraction hle, List.append_nil]

end

end Number

/-! ### Quoted literals -/

namespace QuotedLiteral

theorem escapeDigits_le (radix : Radix) (n : Nat) (cs : List Char) :
    (escapeDigits radix n cs).1 ≤ cs.length := by
  induction n generalizing cs with
  | zero => exact Nat.zero_le _
  | succ n ih =>
    cases cs with
    | nil => exact Nat.le_refl _
    | cons c cs =>
      rw [escapeDigits]
      split
      · exact Nat.succ_le_succ (ih cs)
      · exact Nat.zero_le _

theorem escape_le (cs : List Char) : (escape cs).1 ≤ cs.length := by
  cases cs with
  | nil => exact Nat.le_refl _
  | cons c cs =>
    have hone : 1 ≤ (c :: cs).length := Nat.succ_le_succ (Nat.zero_le _)
    rw [escape]
    split
    · exact hone
    · split
      · exact escapeDigits_le .octal 3 (c :: cs)
      · split
        · exact Nat.succ_le_succ (escapeDigits_le .hexadecimal _ cs)
        · split
          · exact Nat.zero_le _
          · exact hone

theorem length_body_le (quote : Char) (offset : Nat) (cs : List Char) :
    (body quote offset cs).length ≤ cs.length := by
  fun_induction body quote offset cs with
  | case1 offset => exact Nat.le_refl _
  | case2 offset cs => exact Nat.zero_le _
  | case3 offset cs hline => exact Nat.succ_le_succ (Nat.zero_le _)
  | case4 offset cs length fault hescape stop next hline hquote ih =>
    have hle : length ≤ cs.length := by
      have := escape_le cs
      rwa [hescape] at this
    rw [List.length_drop] at ih
    rw [List.length_cons]
    dsimp only [next]
    omega
  | case5 offset c cs hline hquote hescape next ih =>
    rw [List.length_cons]
    dsimp only [next]
    omega

theorem more_scanRaw_le (cs : List Char) : (scanRaw cs).more ≤ cs.length := by
  rw [scanRaw]
  split
  · assumption
  · exact (List.takeWhile_prefix _).length_le

theorem exists_of_add_one {read : Nat × Option LexicalFault} {length : Nat}
    (h : (read.1 + 1, read.2) = (length, none)) : ∃ rest, read = (rest, none) ∧ length = rest + 1 := by
  obtain ⟨rest, fault⟩ := read
  obtain ⟨rfl, rfl⟩ := Prod.mk.inj h
  exact ⟨rest, rfl, rfl⟩

theorem escapeDigits_of_isPrefix {radix : Radix} {n length : Nat} {cs ds : List Char}
    (h : escapeDigits radix n cs = (length, none)) (hds : cs.take length <+: ds) :
    escapeDigits radix n ds = (length, none) := by
  induction n generalizing cs ds length with
  | zero => exact h
  | succ n ih =>
    cases cs with
    | nil => cases h
    | cons c cs =>
      rw [escapeDigits] at h
      split at h
      · next hdigit =>
        obtain ⟨rest, hrest, rfl⟩ := exists_of_add_one h
        rw [List.take_succ_cons] at hds
        obtain ⟨ds, rfl, hothers⟩ := List.cons_prefix_iff.mp hds
        rw [escapeDigits, if_pos hdigit, ih hrest hothers]
      · cases h

/-- No escape without a fault is empty. -/
theorem pos_of_escape {cs : List Char} {length : Nat} (h : escape cs = (length, none)) : 0 < length := by
  cases cs with
  | nil => cases h
  | cons c cs =>
    rw [escape] at h
    split at h
    · obtain rfl := (Prod.mk.inj h).1
      exact Nat.zero_lt_one
    · split at h
      · next hdigit =>
        rw [escapeDigits, if_pos hdigit] at h
        obtain ⟨rest, -, rfl⟩ := exists_of_add_one h
        exact Nat.zero_lt_succ rest
      · split at h
        · obtain ⟨rest, -, rfl⟩ := exists_of_add_one h
          exact Nat.zero_lt_succ rest
        · split at h
          · cases h
          · cases h

/-- An escape without a fault is read from its own characters alone. -/
theorem escape_of_isPrefix {cs ds : List Char} {length : Nat} (h : escape cs = (length, none))
    (hds : cs.take length <+: ds) : escape ds = (length, none) := by
  obtain ⟨n, rfl⟩ := Nat.exists_eq_succ_of_ne_zero (Nat.pos_iff_ne_zero.mp (pos_of_escape h))
  cases cs with
  | nil => cases h
  | cons c cs =>
    obtain ⟨ds, rfl, hothers⟩ := List.cons_prefix_iff.mp (List.take_succ_cons ▸ hds)
    rw [escape] at h ⊢
    split at h
    · next hsimple =>
      rw [if_pos hsimple]
      exact h
    · next hsimple =>
      rw [if_neg hsimple]
      split at h
      · next hdigit =>
        rw [if_pos hdigit]
        exact escapeDigits_of_isPrefix h hds
      · next hdigit =>
        rw [if_neg hdigit]
        cases hhex : hexEscape? c with
        | some digits =>
          rw [hhex] at h
          obtain ⟨rest, hrest, hn⟩ := exists_of_add_one h
          obtain rfl := Nat.succ.inj hn
          dsimp only
          rw [escapeDigits_of_isPrefix hrest hothers]
        | none =>
          rw [hhex] at h
          dsimp only at h
          split at h
          · cases h
          · cases h

/-- A body that is closed and has no fault is read from its own characters alone. -/
theorem body_of_isPrefix {quote : Char} {offset : Nat} {cs : List Char}
    (hclosed : (body quote offset cs).closed = true) (hfaults : (body quote offset cs).faults = []) :
    ∀ {ds : List Char}, cs.take (body quote offset cs).length <+: ds → body quote offset ds = body quote offset cs := by
  fun_induction body quote offset cs with
  | case1 offset => cases hclosed
  | case2 offset cs => cases hclosed
  | case3 offset cs hline =>
    intro ds hds
    obtain ⟨ds, rfl, -⟩ := List.cons_prefix_iff.mp hds
    rw [body, if_neg hline, if_pos rfl]
  | case4 offset cs length fault hescape stop next hline hquote ih =>
    intro ds hds
    obtain ⟨hfault, hrest⟩ := List.append_eq_nil_iff.mp hfaults
    obtain rfl : fault = none := by
      cases fault with
      | none => rfl
      | some fault => cases hfault
    rw [Nat.add_assoc, Nat.add_comm 1, List.take_succ_cons] at hds
    obtain ⟨ds, rfl, hothers⟩ := List.cons_prefix_iff.mp hds
    have hstart : cs.take length <+: ds := (List.take_prefix_take_left (Nat.le_add_right _ _)).trans hothers
    have hafter := hothers.drop length
    rw [List.drop_take, Nat.add_sub_cancel_left] at hafter
    have hlength : length ≤ cs.length := by
      have hle := escape_le cs
      rwa [hescape] at hle
    rw [body, if_neg hline, if_neg hquote, if_pos rfl, escape_of_isPrefix hescape hstart]
    dsimp only
    rw [take_eq_of_isPrefix hlength hstart, ih hclosed hrest hafter]
  | case5 offset c cs hline hquote hescape next ih =>
    intro ds hds
    rw [Nat.add_comm, List.take_succ_cons] at hds
    obtain ⟨ds, rfl, hothers⟩ := List.cons_prefix_iff.mp hds
    rw [body, if_neg hline, if_neg hquote, if_neg hescape, ih hclosed hfaults hothers]

variable {kind : LiteralKind} {quote : Char} {cs ds : List Char}

theorem scan_of_isPrefix (h : (scan kind quote cs).faults = []) (hds : cs.take (scan kind quote cs).more <+: ds) :
    scan kind quote ds = scan kind quote cs := by
  have hds' : cs.take (body quote 1 cs).length <+: ds := hds
  rw [scan] at h
  dsimp only at h
  obtain ⟨hfaults, hfault⟩ := List.append_eq_nil_iff.mp h
  have hclosed : (body quote 1 cs).closed = true := by
    cases hclosed : (body quote 1 cs).closed with
    | true => rfl
    | false => simp [hclosed] at hfault
  rw [scan, scan, body_of_isPrefix hclosed hfaults hds', take_eq_of_isPrefix (length_body_le quote 1 cs) hds']

theorem scanRaw_of_isPrefix (h : (scanRaw cs).faults = []) (hds : cs.take (scanRaw cs).more <+: ds) :
    scanRaw ds = scanRaw cs := by
  have hclosed : (cs.takeWhile (· ≠ '\x60')).length < cs.length := by
    apply Decidable.byContradiction
    intro hopen
    rw [scanRaw, if_neg hopen] at h
    cases h
  rw [scanRaw, if_pos hclosed] at hds
  have hinner := takeWhile_of_isPrefix hclosed hds
  have hlonger : (cs.takeWhile (· ≠ '\x60')).length < ds.length := by
    have hlength := hds.length_le
    rwa [List.length_take_of_le hclosed] at hlength
  rw [scanRaw, scanRaw, hinner, if_pos hclosed, if_pos hlonger]

theorem scan_append (tail : List Char) (h : (scan kind quote cs).faults = []) :
    scan kind quote (cs ++ tail) = scan kind quote cs :=
  scan_of_isPrefix h ((List.take_prefix _ _).trans (List.prefix_append _ _))

theorem scanRaw_append (tail : List Char) (h : (scanRaw cs).faults = []) : scanRaw (cs ++ tail) = scanRaw cs :=
  scanRaw_of_isPrefix h ((List.take_prefix _ _).trans (List.prefix_append _ _))

end QuotedLiteral

/-! ### Signs -/

theorem Kind.length_spelling_pos (k : Kind) : 0 < k.spelling.length := by
  cases k <;> decide

theorem Kind.spelling_eq_cons (k : Kind) : ∃ c cs, k.spelling.toList = c :: cs := by
  apply List.exists_cons_of_length_pos
  rw [String.length_toList]
  exact k.length_spelling_pos

namespace Sign

theorem withAssign_append {tail : List Char} (htail : Delimits tail) (short long : Kind) (cs : List Char) :
    withAssign short long (cs ++ tail) = withAssign short long cs := by
  cases cs with
  | nil =>
    cases tail with
    | nil => rfl
    | cons c tail => rcases htail c rfl with rfl | rfl | rfl <;> rfl
  | cons c cs =>
    rw [List.cons_append, withAssign.eq_def, withAssign.eq_def]
    split <;> simp_all

theorem withAssign_spelling {short long : Kind} {word : List Char} (hshort : short.spelling.toList = word)
    (hlong : long.spelling.toList = word ++ ['=']) (cs : List Char) :
    (withAssign short long cs).spelling.toList <+: word ++ cs := by
  rw [withAssign.eq_def]
  split
  · next ds =>
    rw [hlong]
    exact ⟨ds, by simp⟩
  · rw [hshort]
    exact List.prefix_append _ _

/-- A sign that is read is spelled by the characters that it is read from. -/
theorem kind?_spelling {c : Char} {cs : List Char} {kind : Kind} (h : kind? c cs = some kind) :
    kind.spelling.toList <+: c :: cs := by
  have hone : ∀ {short long : Kind}, short.spelling.toList = [c] → long.spelling.toList = [c] ++ ['='] →
      withAssign short long cs = kind → kind.spelling.toList <+: c :: cs := by
    rintro short long hshort hlong rfl
    exact withAssign_spelling hshort hlong cs
  have htwo : ∀ {short long : Kind} {d : Char} {ds : List Char}, short.spelling.toList = [c, d] →
      long.spelling.toList = [c, d] ++ ['='] → withAssign short long ds = kind →
      kind.spelling.toList <+: c :: d :: ds := by
    rintro short long d ds hshort hlong rfl
    exact withAssign_spelling hshort hlong ds
  rw [kind?.eq_def] at h
  split at h
  all_goals first
    | exact hone (by decide) (by decide) (Option.some.inj h)
    | (split at h <;> first
        | exact hone (by decide) (by decide) (Option.some.inj h)
        | exact htwo (by decide) (by decide) (Option.some.inj h)
        | (cases h <;> simp [Kind.spelling]))
    | (cases h <;> simp [Kind.spelling])

theorem kind?_append {tail : List Char} (htail : Delimits tail) (c : Char) (cs : List Char) :
    kind? c (cs ++ tail) = kind? c cs := by
  cases cs with
  | nil =>
    cases tail with
    | nil => rfl
    | cons d tail =>
      rcases htail d rfl with rfl | rfl | rfl
      all_goals
        rw [List.nil_append, kind?.eq_def, kind?.eq_def]
        split <;> rfl
  | cons d ds =>
    have hassign : ∀ short long cs, withAssign short long (cs ++ tail) = withAssign short long cs :=
      withAssign_append htail
    have hhere : ∀ short long, withAssign short long (d :: (ds ++ tail)) = withAssign short long (d :: ds) :=
      fun short long => hassign short long (d :: ds)
    rw [List.cons_append, kind?.eq_def, kind?.eq_def]
    split
    all_goals first | rfl | exact congrArg some (hhere _ _) | skip
    · by_cases hd : d = '+' <;> simp [hd, hhere]
    · by_cases hd : d = '-' <;> simp [hd, hhere]
    · by_cases hd : d = '*' <;> simp [hd, hhere, hassign]
    · by_cases hd : d = '^' <;> simp [hd, hhere, hassign]
    · by_cases hd : d = '<'
      · simp [hd, hassign]
      · by_cases hd' : d = '-' <;> simp [hd, hd', hhere]
    · by_cases hd : d = '>' <;> simp [hd, hhere, hassign]
    · by_cases hd : d = '.'
      · subst hd
        cases ds with
        | nil =>
          cases tail with
          | nil => rfl
          | cons e tail => rcases htail e rfl with rfl | rfl | rfl <;> rfl
        | cons e ds => by_cases he : e = '.' <;> simp [he]
      · simp [hd]

/-- Only two points make no sign. -/
theorem point_of_kind?_eq_none {cs : List Char} (h : kind? '.' cs = none) : ∃ ds, cs = '.' :: ds := by
  cases cs with
  | nil => cases h
  | cons c cs =>
    by_cases hpoint : c = '.'
    · exact ⟨cs, by rw [hpoint]⟩
    · simp [kind?, hpoint] at h

end Sign

/-! ### Pieces -/

namespace Piece

/-- A word, a number, a quoted literal or a blank starts with another character. -/
structure Plain (c : Char) : Prop where
  blank : ¬ (c = ' ' ∨ c = '\t' ∨ c = '\r')
  line : c ≠ '\n'
  word : ¬ Word.isStart c = true
  digit : ¬ Number.isDigit .decimal c = true
  char : c ≠ '\x27'
  string : c ≠ '\x22'
  raw : c ≠ '\x60'

instance (c : Char) : Decidable (Plain c) :=
  decidable_of_iff
    (¬ (c = ' ' ∨ c = '\t' ∨ c = '\r') ∧ c ≠ '\n' ∧ ¬ Word.isStart c = true ∧ ¬ Number.isDigit .decimal c = true ∧
      c ≠ '\x27' ∧ c ≠ '\x22' ∧ c ≠ '\x60')
    ⟨fun ⟨hblank, hline, hword, hdigit, hchar, hstring, hraw⟩ =>
        ⟨hblank, hline, hword, hdigit, hchar, hstring, hraw⟩,
      fun h => ⟨h.blank, h.line, h.word, h.digit, h.char, h.string, h.raw⟩⟩

/-- The piece that starts with `c` and goes on in `cs`, by the characters that tell which scanner reads it. -/
inductive IsFirst (c : Char) (cs : List Char) : Piece → Prop where
  | blank (hc : c = ' ' ∨ c = '\t' ∨ c = '\r') : IsFirst c cs (.gap 0 false none)
  | line (hc : c = '\n') : IsFirst c cs (.gap 0 true none)
  | word (hc : Word.isStart c = true) :
      IsFirst c cs
        (.token (Word.kind (String.ofList (c :: cs.takeWhile Word.isPart))) (cs.takeWhile Word.isPart).length [])
  | number (hword : ¬ Word.isStart c = true) (hc : Number.isDigit .decimal c = true) :
      IsFirst c cs (ofLiteral (Number.scan c cs))
  | char (hc : c = '\x27') : IsFirst c cs (ofLiteral (QuotedLiteral.scan .char c cs))
  | string (hc : c = '\x22') : IsFirst c cs (ofLiteral (QuotedLiteral.scan .string c cs))
  | raw (hc : c = '\x60') : IsFirst c cs (ofLiteral (QuotedLiteral.scanRaw cs))
  | lineComment (hc : c = '/') (hcs : cs.head? = some '/') :
      IsFirst c cs (.gap (cs.takeWhile (· ≠ '\n')).length false none)
  | blockComment (hc : c = '/') (hcs : cs.head? = some '*') : IsFirst c cs (blockComment (cs.drop 1))
  | fraction (hc : c = '.') (hcs : cs.head?.any (Number.isDigit .decimal) = true) :
      IsFirst c cs (ofLiteral (Number.scanFraction cs))
  | sign {kind : Kind} (hc : Plain c) (hcomment : c = '/' → cs.head? ≠ some '/' ∧ cs.head? ≠ some '*')
      (hpoint : c = '.' → cs.head?.any (Number.isDigit .decimal) = false) (hkind : Sign.kind? c cs = some kind) :
      IsFirst c cs (.token kind (kind.spelling.length - 1) [])
  | points (hc : c = '.') (hkind : Sign.kind? c cs = none) : IsFirst c cs (.gap 1 false (some .doubleDot))
  | illegal (hc : Plain c) (hpoint : c ≠ '.') (hkind : Sign.kind? c cs = none) :
      IsFirst c cs (.gap 0 false (some (.illegalCharacter c)))

variable {c : Char} {cs : List Char}

theorem isFirst_first (c : Char) (cs : List Char) : IsFirst c cs (first c cs) := by
  rw [first]
  by_cases hblank : c = ' ' ∨ c = '\t' ∨ c = '\r'
  · rw [if_pos hblank]
    exact .blank hblank
  rw [if_neg hblank]
  by_cases hline : c = '\n'
  · rw [if_pos hline]
    exact .line hline
  rw [if_neg hline]
  by_cases hword : Word.isStart c = true
  · rw [if_pos hword]
    exact .word hword
  rw [if_neg hword]
  by_cases hdigit : Number.isDigit .decimal c = true
  · rw [if_pos hdigit]
    exact .number hword hdigit
  rw [if_neg hdigit]
  by_cases hchar : c = '\x27'
  · rw [if_pos hchar]
    exact .char hchar
  rw [if_neg hchar]
  by_cases hstring : c = '\x22'
  · rw [if_pos hstring]
    exact .string hstring
  rw [if_neg hstring]
  by_cases hraw : c = '\x60'
  · rw [if_pos hraw]
    exact .raw hraw
  rw [if_neg hraw]
  have hplain : Plain c := ⟨hblank, hline, hword, hdigit, hchar, hstring, hraw⟩
  by_cases hlineComment : c = '/' ∧ cs.head? = some '/'
  · rw [if_pos hlineComment]
    exact .lineComment hlineComment.1 hlineComment.2
  rw [if_neg hlineComment]
  by_cases hblockComment : c = '/' ∧ cs.head? = some '*'
  · rw [if_pos hblockComment]
    exact .blockComment hblockComment.1 hblockComment.2
  rw [if_neg hblockComment]
  by_cases hfraction : c = '.' ∧ cs.head?.any (Number.isDigit .decimal) = true
  · rw [if_pos hfraction]
    exact .fraction hfraction.1 hfraction.2
  rw [if_neg hfraction]
  cases hkind : Sign.kind? c cs with
  | some kind =>
    exact .sign hplain (fun hc => ⟨fun hcs => hlineComment ⟨hc, hcs⟩, fun hcs => hblockComment ⟨hc, hcs⟩⟩)
      (fun hc => Bool.eq_false_iff.mpr fun hcs => hfraction ⟨hc, hcs⟩) hkind
  | none =>
    dsimp only
    by_cases hpoint : c = '.'
    · rw [if_pos hpoint]
      exact .points hpoint hkind
    · rw [if_neg hpoint]
      exact .illegal hplain hpoint hkind

/-- The scanners that are left for such a character. -/
theorem Plain.first_eq (hc : Plain c) (cs : List Char) :
    first c cs =
      if c = '/' ∧ cs.head? = some '/' then .gap (cs.takeWhile (· ≠ '\n')).length false none
      else if c = '/' ∧ cs.head? = some '*' then blockComment (cs.drop 1)
      else if c = '.' ∧ cs.head?.any (Number.isDigit .decimal) then ofLiteral (Number.scanFraction cs)
      else
        match Sign.kind? c cs with
        | some kind => .token kind (kind.spelling.length - 1) []
        | none => if c = '.' then .gap 1 false (some .doubleDot) else .gap 0 false (some (.illegalCharacter c)) :=
  (if_neg hc.blank).trans <| (if_neg hc.line).trans <| (if_neg hc.word).trans <| (if_neg hc.digit).trans <|
    (if_neg hc.char).trans <| (if_neg hc.string).trans (if_neg hc.raw)

theorem plain_slash : Plain '/' := by decide

theorem plain_point : Plain '.' := by decide

/-- No two scanners read the same piece. -/
theorem IsFirst.first_eq {p : Piece} (h : IsFirst c cs p) : first c cs = p := by
  cases h with
  | blank hc => rw [first, if_pos hc]
  | line hc => rw [first, if_neg (by subst hc; decide), if_pos hc]
  | word hc =>
    have hblank : ¬ (c = ' ' ∨ c = '\t' ∨ c = '\r') := by
      rintro (rfl | rfl | rfl) <;> revert hc <;> decide
    have hline : c ≠ '\n' := by
      rintro rfl
      revert hc
      decide
    rw [first, if_neg hblank, if_neg hline, if_pos hc]
  | number hword hc =>
    have hblank : ¬ (c = ' ' ∨ c = '\t' ∨ c = '\r') := by
      rintro (rfl | rfl | rfl) <;> cases hc
    have hline : c ≠ '\n' := by
      rintro rfl
      cases hc
    rw [first, if_neg hblank, if_neg hline, if_neg hword, if_pos hc]
  | char hc =>
    subst hc
    rw [first, if_neg (by decide), if_neg (by decide), if_neg (by decide), if_neg (by decide), if_pos rfl]
  | string hc =>
    subst hc
    rw [first, if_neg (by decide), if_neg (by decide), if_neg (by decide), if_neg (by decide),
      if_neg (by decide), if_pos rfl]
  | raw hc =>
    subst hc
    rw [first, if_neg (by decide), if_neg (by decide), if_neg (by decide), if_neg (by decide),
      if_neg (by decide), if_neg (by decide), if_pos rfl]
  | lineComment hc hcs =>
    subst hc
    rw [plain_slash.first_eq, if_pos ⟨rfl, hcs⟩]
  | blockComment hc hcs =>
    subst hc
    rw [plain_slash.first_eq, hcs, if_neg (by decide), if_pos ⟨rfl, rfl⟩]
  | fraction hc hcs =>
    subst hc
    rw [plain_point.first_eq, if_neg (fun h => by cases h.1), if_neg (fun h => by cases h.1), if_pos ⟨rfl, hcs⟩]
  | sign hc hcomment hpoint hkind =>
    rw [hc.first_eq, if_neg fun h => (hcomment h.1).1 h.2, if_neg fun h => (hcomment h.1).2 h.2,
      if_neg fun h => Bool.eq_false_iff.mp (hpoint h.1) h.2, hkind]
  | points hc hkind =>
    subst hc
    obtain ⟨ds, rfl⟩ := Sign.point_of_kind?_eq_none hkind
    rw [plain_point.first_eq, if_neg (fun h => by cases h.1), if_neg (fun h => by cases h.1),
      if_neg (fun h => by cases h.2), hkind]
    rfl
  | illegal hc hpoint hkind =>
    have hslash : c ≠ '/' := by
      rintro rfl
      cases hkind
    rw [hc.first_eq, if_neg fun h => hslash h.1, if_neg fun h => hslash h.1, if_neg fun h => hpoint h.1, hkind]
    dsimp only
    rw [if_neg hpoint]

theorem ofLiteral_eq_token {s : LiteralScan} {kind : Kind} {more : Nat} {faults : List FaultAt} :
    ofLiteral s = .token kind more faults ↔ s.kind.token = kind ∧ s.more = more ∧ s.faults = faults := by
  rw [ofLiteral, token.injEq]

/-- Lifts to its piece what holds of the scan of a literal without a fault. -/
theorem ofLiteral_append {scan : List Char → LiteralScan} {cs tail : List Char} {kind : Kind} {more : Nat}
    (hscan : (scan cs).faults = [] → scan (cs ++ tail) = scan cs)
    (h : ofLiteral (scan cs) = .token kind more []) : ofLiteral (scan (cs ++ tail)) = .token kind more [] := by
  obtain ⟨-, -, hfaults⟩ := ofLiteral_eq_token.mp h
  rw [hscan hfaults, h]

/-- A delimiter after the text leaves a token without a fault as it is. -/
theorem first_append {c : Char} {cs tail : List Char} {kind : Kind} {more : Nat} (htail : Delimits tail)
    (h : first c cs = .token kind more []) : first c (cs ++ tail) = .token kind more [] := by
  have hfirst := isFirst_first c cs
  generalize first c cs = p at h hfirst
  refine IsFirst.first_eq ?_
  cases hfirst with
  | blank | line | lineComment | blockComment | points | illegal => cases h
  | word hc =>
    rw [← h, ← htail.takeWhile_append (by decide) (by decide) (by decide)]
    exact .word hc
  | number hword hc => exact ofLiteral_append (fun _ => Number.scan_append htail c cs) h ▸ .number hword hc
  | char hc => exact ofLiteral_append (QuotedLiteral.scan_append tail) h ▸ .char hc
  | string hc => exact ofLiteral_append (QuotedLiteral.scan_append tail) h ▸ .string hc
  | raw hc => exact ofLiteral_append (QuotedLiteral.scanRaw_append tail) h ▸ .raw hc
  | fraction hc hcs =>
    refine ofLiteral_append (fun _ => Number.scanFraction_append htail cs) h ▸ .fraction hc ?_
    rw [htail.head?_any_append (by decide) (by decide) (by decide), hcs]
  | sign hc hcomment hpoint hkind =>
    rw [← h]
    refine .sign hc (fun hslash => ?_) (fun hdot => ?_) (by rw [Sign.kind?_append htail, hkind])
    · rw [Ne, Ne, htail.head?_append_iff (by decide) (by decide) (by decide),
        htail.head?_append_iff (by decide) (by decide) (by decide)]
      exact hcomment hslash
    · rw [htail.head?_any_append (by decide) (by decide) (by decide), hpoint hdot]

end Piece

end RoseLang
