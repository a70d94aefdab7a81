import Mathlib.Data.Bool.AllAny
import RoseLang.Proofs.Token.Extent
import RoseLang.Proofs.Token.Literals
import RoseLang.Proofs.Token.Scanning

/-!
# The grammar of numeric literals

`IsInteger` and `IsFloat` say how a number is written, character by character and without a word about scanning. A
text is read as one integer, or as one float, exactly if it is written so. That a scan without a fault takes only
what the grammar has, and all of what the grammar has, is proved for each part of a number.
-/

namespace RoseLang

/-! ### The grammar -/

namespace Radix

def digits : Radix → List Char
  | binary => "01".toList
  | octal => "01234567".toList
  | decimal => "0123456789".toList
  | hexadecimal => "0123456789abcdefABCDEF".toList

/-- The letters that mark the radix after a leading 0. -/
def marks : Radix → List Char
  | binary => ['b', 'B']
  | octal => ['o', 'O']
  | decimal => []
  | hexadecimal => ['x', 'X']

theorem mem_digits_decimal_iff {c : Char} : c ∈ decimal.digits ↔ c = '0' ∨ c ∈ "123456789".toList := by
  show c ∈ "0123456789".toList ↔ _
  simp

end Radix

/-- Digits and underscores, in any order. -/
def IsRun (radix : Radix) (cs : List Char) : Prop := ∀ c ∈ cs, c = '_' ∨ c ∈ radix.digits

/-- Not only underscores. -/
def HasDigit (cs : List Char) : Prop := ∃ c ∈ cs, c ≠ '_'

inductive IsInteger : List Char → Prop where
  | decimal {c : Char} {cs : List Char} (hc : c ∈ "123456789".toList) (hcs : IsRun .decimal cs) : IsInteger (c :: cs)
  | octal {cs : List Char} (hcs : IsRun .octal cs) : IsInteger ('0' :: cs)
  | marked {radix : Radix} {mark : Char} {cs : List Char} (hmark : mark ∈ radix.marks) (hcs : IsRun radix cs)
      (hdigit : HasDigit cs) : IsInteger ('0' :: mark :: cs)

inductive IsExponent : List Char → Prop where
  | mk {e : Char} {sign cs : List Char} (he : e = 'e' ∨ e = 'E') (hsign : sign ∈ [[], ['+'], ['-']])
      (hcs : IsRun .decimal cs) (hdigit : HasDigit cs) : IsExponent (e :: (sign ++ cs))

inductive IsFloat : List Char → Prop where
  | point {c : Char} {cs fs power : List Char} (hc : c ∈ Radix.decimal.digits) (hcs : IsRun .decimal cs)
      (hfs : IsRun .decimal fs) (hpower : power = [] ∨ IsExponent power) : IsFloat (c :: (cs ++ '.' :: (fs ++ power)))
  | power {c : Char} {cs power : List Char} (hc : c ∈ Radix.decimal.digits) (hcs : IsRun .decimal cs)
      (hpower : IsExponent power) : IsFloat (c :: (cs ++ power))
  | fraction {c : Char} {cs power : List Char} (hc : c ∈ Radix.decimal.digits) (hcs : IsRun .decimal cs)
      (hpower : power = [] ∨ IsExponent power) : IsFloat ('.' :: c :: (cs ++ power))

theorem IsExponent.eq_cons {cs : List Char} (h : IsExponent cs) : ∃ e ds, cs = e :: ds ∧ (e = 'e' ∨ e = 'E') := by
  cases h with
  | mk he hsign hcs hdigit => exact ⟨_, _, rfl, he⟩

/-! ### Runs of digits -/

namespace Number

variable {radix : Radix} {c : Char} {cs rest : List Char}

theorem toNat_le_of_isDigit (h : isDigit radix c = true) : c.toNat ≤ 102 := by
  have hle : ∀ {d : Char}, c ≤ d → c.toNat ≤ d.toNat := fun h => UInt32.le_iff_toNat_le.mp (Char.le_def.mp h)
  rw [isDigit, digitValue?] at h
  split at h
  · next hc => exact Nat.le_trans (hle hc.2) (by decide)
  · split at h
    · next hc => exact hle hc.2
    · split at h
      · next hc => exact Nat.le_trans (hle hc.2) (by decide)
      · cases h

theorem isDigit_iff : isDigit radix c = true ↔ c ∈ radix.digits := by
  constructor
  · intro h
    -- Only finitely many characters are left, and each of them can be looked at.
    have hsmall : ∀ n < 103, isDigit radix (Char.ofNat n) = true → Char.ofNat n ∈ radix.digits := by
      cases radix <;> decide +kernel
    have hc := hsmall c.toNat (Nat.lt_succ_of_le (toNat_le_of_isDigit h))
    rw [Char.ofNat_toNat] at hc
    exact hc h
  · have hdigits : ∀ d ∈ radix.digits, isDigit radix d = true := by
      cases radix <;> exact List.all_iff_forall_prop.mp (by decide)
    exact hdigits c

theorem isRunPart_iff : isRunPart radix c = true ↔ c = '_' ∨ c ∈ radix.digits ∨ c ∈ Radix.decimal.digits := by
  simp [isRunPart, isDigit_iff, or_assoc]

theorem isRunPart_decimal_iff : isRunPart .decimal c = true ↔ c = '_' ∨ c ∈ Radix.decimal.digits := by
  rw [isRunPart_iff, or_self]

theorem markedRadix?_eq_some_iff : markedRadix? c = some radix ↔ c ∈ radix.marks := by
  constructor
  · intro h
    rw [markedRadix?] at h
    split at h
    · next hc =>
      cases h
      simpa [Radix.marks] using hc
    · split at h
      · next hc =>
        cases h
        simpa [Radix.marks] using hc
      · split at h
        · next hc =>
          cases h
          simpa [Radix.marks] using hc
        · cases h
  · have hmarks : ∀ d ∈ radix.marks, markedRadix? d = some radix := by
      cases radix <;> exact List.all_iff_forall_prop.mp (by decide)
    exact hmarks c

theorem hasDigit_iff : hasDigit cs = true ↔ HasDigit cs := by
  simp [hasDigit, HasDigit]

theorem strayDigit?_eq_none_iff : strayDigit? radix cs = none ↔ IsRun radix cs := by
  simp [strayDigit?, IsRun, List.find?_eq_none, isDigit_iff, or_iff_not_imp_left]

theorem isRun_digitRun (cs : List Char) : IsRun .decimal (digitRun .decimal cs) := by
  intro c hc
  exact isRunPart_decimal_iff.mp (List.all_eq_true.mp List.all_takeWhile c hc)

theorem digitRun_append_drop (radix : Radix) (cs : List Char) :
    digitRun radix cs ++ cs.drop (digitRun radix cs).length = cs :=
  List.prefix_iff_eq_append.mp (List.takeWhile_prefix _)

/-- A run that is as long as the text is the text. -/
theorem length_digitRun_eq_iff : (digitRun radix cs).length = cs.length ↔ ∀ c ∈ cs, isRunPart radix c = true := by
  rw [digitRun]
  constructor
  · intro h c hc
    rw [← (List.takeWhile_prefix _).eq_of_length h] at hc
    exact List.all_eq_true.mp List.all_takeWhile c hc
  · intro h
    rw [← List.append_nil cs, List.takeWhile_append_of_pos h, List.takeWhile_nil]

theorem digitRun_of_isRun (hcs : IsRun radix cs) : digitRun radix cs = cs :=
  (List.takeWhile_prefix _).eq_of_length <| length_digitRun_eq_iff.mpr fun c hc =>
    isRunPart_iff.mpr ((hcs c hc).imp_right .inl)

theorem digitRun_append_of_isRun (hcs : IsRun .decimal cs) (hrest : ∀ c ∈ rest.head?, isRunPart .decimal c = false) :
    digitRun .decimal (cs ++ rest) = cs := by
  rw [digitRun, List.takeWhile_append_of_pos fun c hc => isRunPart_decimal_iff.mpr (hcs c hc)]
  cases rest with
  | nil => exact List.append_nil cs
  | cons c rest => rw [List.takeWhile_cons_of_neg (by simp [hrest c rfl]), List.append_nil]

/-! ### Exponents -/

/-- Where an exponent may start, a run of digits ends and no point stands. -/
theorem head_of_power {power : List Char} (h : power = [] ∨ IsExponent power) :
    ∀ c ∈ power.head?, isRunPart .decimal c = false ∧ c ≠ '.' := by
  rcases h with rfl | h
  · simp
  · obtain ⟨e, ds, rfl, he⟩ := h.eq_cons
    intro c hc
    cases hc
    rcases he with rfl | rfl <;> decide

theorem take_signLength (cs : List Char) : cs.take (signLength cs) ∈ [[], ['+'], ['-']] := by
  rw [signLength]
  split
  · next h =>
    cases cs with
    | nil => cases h
    | cons d cs =>
      have hd : d = '+' ∨ d = '-' := by simpa using h
      rcases hd with rfl | rfl <;> simp
  · simp

theorem signLength_append {sign : List Char} (hsign : sign ∈ [[], ['+'], ['-']]) (hcs : IsRun .decimal cs)
    (hdigit : HasDigit cs) : signLength (sign ++ cs) = sign.length := by
  have hsigns : sign = [] ∨ sign = ['+'] ∨ sign = ['-'] := by simpa using hsign
  rcases hsigns with rfl | rfl | rfl
  · -- A run starts with no sign.
    obtain ⟨d, hd, -⟩ := hdigit
    obtain ⟨d, ds, rfl⟩ := List.exists_cons_of_ne_nil (List.ne_nil_of_mem hd)
    have hpart : isRunPart .decimal d = true := isRunPart_decimal_iff.mpr (hcs d List.mem_cons_self)
    refine if_neg fun hsigned => ?_
    have hd : d = '+' ∨ d = '-' := by simpa using hsigned
    rcases hd with rfl | rfl <;> cases hpart
  · rfl
  · rfl

/-- What is read as an exponent to its end, or has none at all. -/
theorem exponent_eq_iff : exponent cs = (cs.length, false) ↔ cs = [] ∨ IsExponent cs := by
  constructor
  · intro h
    cases cs with
    | nil => exact .inl rfl
    | cons c cs =>
      by_cases he : c = 'e' ∨ c = 'E'
      · rw [exponent_cons_of_mark he, Prod.mk.injEq, List.length_cons, Bool.not_eq_false'] at h
        obtain ⟨hlength, hdigit⟩ := h
        have hle := signLength_le cs
        have hall : (digitRun .decimal (cs.drop (signLength cs))).length = (cs.drop (signLength cs)).length := by
          rw [List.length_drop]
          omega
        have hself := (List.takeWhile_prefix _).eq_of_length hall
        rw [digitRun, hself, hasDigit_iff] at hdigit
        have hrun : IsRun .decimal (cs.drop (signLength cs)) :=
          fun d hd => isRunPart_decimal_iff.mp (length_digitRun_eq_iff.mp hall d hd)
        have hexponent := IsExponent.mk he (take_signLength cs) hrun hdigit
        rw [List.take_append_drop] at hexponent
        exact .inr hexponent
      · rw [exponent, if_neg he] at h
        cases h
  · rintro (rfl | h)
    · rfl
    · cases h with
      | @mk e sign cs he hsign hcs hdigit =>
        rw [exponent_cons_of_mark he, signLength_append hsign hcs hdigit, List.drop_left, digitRun_of_isRun hcs,
          hasDigit_iff.mpr hdigit, Prod.mk.injEq, List.length_cons, List.length_append]
        exact ⟨by omega, rfl⟩

theorem isExponent_of_whole (hlength : cs.length ≤ (exponent cs).1) (hfault : (exponent cs).2 = false) :
    cs = [] ∨ IsExponent cs :=
  exponent_eq_iff.mp (Prod.ext (Nat.le_antisymm (exponent_le cs) hlength) hfault)

/-! ### Whole numbers -/

variable {kind kind' : LiteralKind} {first : Char}

theorem scanned_eq_iff {more more' : Nat} {fault : Option LexicalFault} :
    scanned kind more fault = ⟨kind', more', []⟩ ↔ kind = kind' ∧ more = more' ∧ fault = none := by
  rw [scanned, LiteralScan.mk.injEq]
  cases fault <;> simp

theorem scanMarked_eq_iff :
    scanMarked radix cs = ⟨.int, (c :: cs).length, []⟩ ↔ IsRun radix cs ∧ HasDigit cs := by
  have hall : 1 + (digitRun radix cs).length = (c :: cs).length ↔ digitRun radix cs = cs := by
    rw [List.length_cons, Nat.add_comm, Nat.add_right_cancel_iff]
    exact ⟨(List.takeWhile_prefix _).eq_of_length, congrArg List.length⟩
  rw [scanMarked, scanned_eq_iff, hall]
  constructor
  · rintro ⟨-, hself, hfault⟩
    rw [hself] at hfault
    split at hfault
    · next hdigit =>
      rw [Option.map_eq_none_iff, strayDigit?_eq_none_iff] at hfault
      exact ⟨hfault, hasDigit_iff.mp hdigit⟩
    · cases hfault
  · rintro ⟨hrun, hdigit⟩
    rw [digitRun_of_isRun hrun, if_pos (hasDigit_iff.mpr hdigit), strayDigit?_eq_none_iff.mpr hrun]
    exact ⟨rfl, rfl, rfl⟩

theorem scanUnmarked_int_iff :
    scanUnmarked first cs = ⟨.int, cs.length, []⟩ ↔ IsRun .decimal cs ∧ (first = '0' → IsRun .octal cs) := by
  rw [scanUnmarked_eq]
  dsimp only
  constructor
  · intro h
    split at h
    · next hnone =>
      obtain ⟨-, hlength, hfault⟩ := scanned_eq_iff.mp h
      rw [hnone.2, hnone.1] at hlength
      have hself := (List.takeWhile_prefix _).eq_of_length hlength
      have hrun := isRun_digitRun cs
      rw [digitRun, hself] at hrun
      refine ⟨hrun, fun hzero => ?_⟩
      rwa [if_pos hzero, Option.map_eq_none_iff, digitRun, hself, strayDigit?_eq_none_iff] at hfault
    · obtain ⟨hkind, -, -⟩ := scanned_eq_iff.mp h
      cases hkind
  · rintro ⟨hrun, hoctal⟩
    rw [digitRun_of_isRun hrun, List.drop_length, if_pos ⟨rfl, rfl⟩, scanned_eq_iff]
    refine ⟨rfl, rfl, ?_⟩
    split
    · next hzero => rw [strayDigit?_eq_none_iff.mpr (hoctal hzero), Option.map_none]
    · rfl

/-- How a float that starts with a digit is taken apart. -/
theorem isFloat_of_scanUnmarked (hc : c ∈ Radix.decimal.digits)
    (h : scanUnmarked c cs = ⟨.float, cs.length, []⟩) : IsFloat (c :: cs) := by
  have hsplit := digitRun_append_drop .decimal cs
  have hrun := isRun_digitRun cs
  rw [scanUnmarked_eq] at h
  dsimp only at h
  generalize digitRun .decimal cs = run at h hsplit hrun
  generalize cs.drop run.length = rest at h hsplit
  subst hsplit
  split at h
  · obtain ⟨hkind, -, -⟩ := scanned_eq_iff.mp h
    cases hkind
  · next hsome =>
    obtain ⟨-, hlength, hfault⟩ := scanned_eq_iff.mp h
    have hlacking : (exponent (rest.drop (fractionLength rest))).2 = false := by simpa using hfault
    rw [List.length_append] at hlength
    by_cases hpoint : ∃ es, rest = '.' :: es
    · obtain ⟨es, rfl⟩ := hpoint
      have hfraction : (es.drop (digitRun .decimal es).length) = ('.' :: es).drop (fractionLength ('.' :: es)) := by
        rw [fractionLength, Nat.add_comm, List.drop_succ_cons]
      rw [← hfraction] at hlacking hlength
      rw [fractionLength, List.length_cons] at hlength
      have hwhole : (es.drop (digitRun .decimal es).length).length ≤
          (exponent (es.drop (digitRun .decimal es).length)).1 := by
        rw [List.length_drop]
        omega
      have hfloat := IsFloat.point hc hrun (isRun_digitRun es) (isExponent_of_whole hwhole hlacking)
      rwa [digitRun_append_drop] at hfloat
    · have hfraction : fractionLength rest = 0 := by
        rw [fractionLength.eq_def]
        split
        · next es => exact absurd ⟨es, rfl⟩ hpoint
        · rfl
      rw [hfraction, List.drop_zero] at hlacking hlength hsome
      rcases isExponent_of_whole (by omega) hlacking with rfl | hexponent
      · exact absurd ⟨rfl, rfl⟩ hsome
      · exact .power hc hrun hexponent

theorem scanUnmarked_of_isFloat (hc : c ∈ Radix.decimal.digits) (h : IsFloat (c :: cs)) :
    scanUnmarked c cs = ⟨.float, cs.length, []⟩ := by
  rw [scanUnmarked_eq]
  dsimp only
  cases h with
  | @point _ cs fs power _ hcs hfs hpower =>
    have hhead := head_of_power hpower
    have hrest : (fs ++ power).drop fs.length = power := List.drop_left
    rw [digitRun_append_of_isRun hcs (by simp; decide), List.drop_left, fractionLength,
      digitRun_append_of_isRun hfs fun d hd => (hhead d hd).1, Nat.add_comm 1, List.drop_succ_cons, hrest,
      exponent_eq_iff.mpr hpower, if_neg fun hnone => absurd hnone.1 (Nat.succ_ne_zero _), scanned_eq_iff]
    refine ⟨rfl, ?_, rfl⟩
    simp only [List.length_append, List.length_cons]
    omega
  | @power _ cs power _ hcs hpower =>
    have hhead := head_of_power (.inr hpower)
    have hfraction : fractionLength power = 0 := by
      rw [fractionLength.eq_def]
      split
      · exact absurd rfl (hhead _ rfl).2
      · rfl
    obtain ⟨e, ds, rfl, -⟩ := hpower.eq_cons
    rw [digitRun_append_of_isRun hcs fun d hd => (hhead d hd).1, List.drop_left, hfraction, List.drop_zero,
      exponent_eq_iff.mpr (.inr hpower), if_neg fun hnone => absurd hnone.2 (Nat.succ_ne_zero _), scanned_eq_iff]
    refine ⟨rfl, ?_, rfl⟩
    simp only [List.length_append, Nat.add_zero]
  | fraction => exact absurd hc (by decide)

/-- The float that starts with a point. -/
theorem scanFraction_eq_iff (hc : c ∈ Radix.decimal.digits) :
    scanFraction (c :: cs) = ⟨.float, (c :: cs).length, []⟩ ↔ IsFloat ('.' :: c :: cs) := by
  have hpart : isRunPart .decimal c = true := isRunPart_decimal_iff.mpr (.inr hc)
  have hcons : digitRun .decimal (c :: cs) = c :: digitRun .decimal cs := List.takeWhile_cons_of_pos hpart
  rw [scanFraction, hcons]
  dsimp only
  rw [List.length_cons, List.length_cons, List.drop_succ_cons, scanned_eq_iff]
  constructor
  · rintro ⟨-, hlength, hfault⟩
    have hlacking : (exponent (cs.drop (digitRun .decimal cs).length)).2 = false := by simpa using hfault
    have hwhole : (cs.drop (digitRun .decimal cs).length).length ≤
        (exponent (cs.drop (digitRun .decimal cs).length)).1 := by
      rw [List.length_drop]
      omega
    have hfloat := IsFloat.fraction hc (isRun_digitRun cs) (isExponent_of_whole hwhole hlacking)
    rwa [digitRun_append_drop] at hfloat
  · intro h
    generalize hw : '.' :: c :: cs = w at h
    cases h with
    | point hpoint =>
      obtain ⟨rfl, -⟩ := List.cons.inj hw
      exact absurd hpoint (by decide)
    | power hpoint =>
      obtain ⟨rfl, -⟩ := List.cons.inj hw
      exact absurd hpoint (by decide)
    | @fraction _ run power _ hrun hpower =>
      obtain ⟨rfl, rfl⟩ := List.cons.inj (List.cons.inj hw).2
      rw [digitRun_append_of_isRun hrun fun d hd => (head_of_power hpower d hd).1, List.drop_left,
        exponent_eq_iff.mpr hpower, List.length_append]
      exact ⟨rfl, Nat.add_right_comm .., rfl⟩

/-! ### The scan of a number -/

theorem scan_of_mark {mark : Char} (hmark : mark ∈ radix.marks) (cs : List Char) :
    scan '0' (mark :: cs) = scanMarked radix cs := by
  rw [scan, markedRadix?_eq_some_iff.mpr hmark]

theorem scan_of_unmarked (h : ∀ radix : Radix, ∀ mark ∈ radix.marks, ∀ ds, ¬ (c = '0' ∧ cs = mark :: ds)) :
    scan c cs = scanUnmarked c cs := by
  rw [scan.eq_def]
  split
  · next mark ds =>
    split
    · next radix hmark => exact absurd ⟨rfl, rfl⟩ (h radix mark (markedRadix?_eq_some_iff.mp hmark) ds)
    · rfl
  · rfl

/-- A number that starts with 0 is octal, or its radix is marked. -/
theorem isInteger_zero_iff :
    IsInteger ('0' :: cs) ↔ IsRun .octal cs ∨
      ∃ radix : Radix, ∃ mark ∈ radix.marks, ∃ ds, cs = mark :: ds ∧ IsRun radix ds ∧ HasDigit ds := by
  constructor
  · intro h
    generalize hw : '0' :: cs = w at h
    cases h with
    | decimal hc =>
      obtain ⟨rfl, -⟩ := List.cons.inj hw
      exact absurd hc (by decide)
    | octal hcs =>
      obtain ⟨-, rfl⟩ := List.cons.inj hw
      exact .inl hcs
    | marked hmark hcs hdigit =>
      obtain ⟨-, rfl⟩ := List.cons.inj hw
      exact .inr ⟨_, _, hmark, _, rfl, hcs, hdigit⟩
  · rintro (hcs | ⟨radix, mark, hmark, ds, rfl, hcs, hdigit⟩)
    · exact .octal hcs
    · exact .marked hmark hcs hdigit

theorem scan_int_iff (hc : c ∈ Radix.decimal.digits) : scan c cs = ⟨.int, cs.length, []⟩ ↔ IsInteger (c :: cs) := by
  by_cases hzero : c = '0'
  · subst hzero
    rw [isInteger_zero_iff]
    by_cases hmarked : ∃ radix : Radix, ∃ mark ∈ radix.marks, ∃ ds, cs = mark :: ds
    · obtain ⟨radix, mark, hmark, ds, rfl⟩ := hmarked
      rw [scan_of_mark hmark, scanMarked_eq_iff]
      constructor
      · exact fun h => .inr ⟨radix, mark, hmark, ds, rfl, h⟩
      · rintro (hrun | ⟨radix', mark', hmark', ds', heq, h⟩)
        · have hnone : ∀ d ∈ '_' :: Radix.octal.digits, markedRadix? d = none := List.all_iff_forall_prop.mp (by decide)
          have hmark' := hnone mark (List.mem_cons.mpr (hrun mark List.mem_cons_self))
          rw [markedRadix?_eq_some_iff.mpr hmark] at hmark'
          cases hmark'
        · obtain ⟨rfl, rfl⟩ := List.cons.inj heq
          rw [← markedRadix?_eq_some_iff] at hmark hmark'
          obtain rfl := Option.some.inj (hmark.symm.trans hmark')
          exact h
    · rw [scan_of_unmarked fun radix mark hmark ds h => hmarked ⟨radix, mark, hmark, ds, h.2⟩, scanUnmarked_int_iff]
      constructor
      · exact fun h => .inl (h.2 rfl)
      · rintro (hrun | ⟨radix, mark, hmark, ds, rfl, -⟩)
        · have hdecimal : ∀ d ∈ Radix.octal.digits, d ∈ Radix.decimal.digits := List.all_iff_forall_prop.mp (by decide)
          exact ⟨fun d hd => (hrun d hd).imp_right (hdecimal d), fun _ => hrun⟩
        · exact absurd ⟨radix, mark, hmark, ds, rfl⟩ hmarked
  · rw [scan_of_ne_zero hzero, scanUnmarked_int_iff]
    constructor
    · exact fun h => .decimal ((Radix.mem_digits_decimal_iff.mp hc).resolve_left hzero) h.1
    · intro h
      cases h with
      | decimal _ hcs => exact ⟨hcs, fun h => absurd h hzero⟩
      | octal => exact absurd rfl hzero
      | marked => exact absurd rfl hzero

theorem scan_float_iff (hc : c ∈ Radix.decimal.digits) : scan c cs = ⟨.float, cs.length, []⟩ ↔ IsFloat (c :: cs) := by
  by_cases hmarked : ∃ radix : Radix, ∃ mark ∈ radix.marks, ∃ ds, c = '0' ∧ cs = mark :: ds
  · obtain ⟨radix, mark, hmark, ds, rfl, rfl⟩ := hmarked
    constructor
    · intro h
      rw [scan_of_mark hmark, scanMarked, scanned_eq_iff] at h
      cases h.1
    · -- Read without its mark, such a text would be the integer 0.
      intro h
      have hint : (scanUnmarked '0' (mark :: ds)).kind = .int := by
        cases radix with
        | decimal => cases hmark
        | binary | octal | hexadecimal =>
          obtain rfl | rfl : mark = _ ∨ mark = _ := by simpa [Radix.marks] using hmark
          · rfl
          · rfl
      rw [scanUnmarked_of_isFloat hc h] at hint
      cases hint
  · rw [scan_of_unmarked fun radix mark hmark ds h => hmarked ⟨radix, mark, hmark, ds, h⟩]
    exact ⟨isFloat_of_scanUnmarked hc, scanUnmarked_of_isFloat hc⟩

end Number

/-! ### The tokens of a text -/

namespace Piece

variable {c : Char} {cs : List Char} {kind : LiteralKind}

/-- Only two scanners find numbers. -/
theorem isNumber_of_first (hkind : kind = .int ∨ kind = .float)
    (h : first c cs = .token kind.token cs.length []) :
    (c ∈ Radix.decimal.digits ∧ Number.scan c cs = ⟨kind, cs.length, []⟩) ∨
      (c = '.' ∧ cs.head?.any (Number.isDigit .decimal) = true ∧ Number.scanFraction cs = ⟨kind, cs.length, []⟩) := by
  have hliteral := first_eq_literal_iff.mp h
  generalize hs : (⟨kind, cs.length, []⟩ : LiteralScan) = s at hliteral
  cases hliteral with
  | number hword hc => exact .inl ⟨Number.isDigit_iff.mp hc, rfl⟩
  | fraction hc hcs => exact .inr ⟨hc, hcs, rfl⟩
  | quoted hquote =>
    have hsame : kind = _ := (congrArg LiteralScan.kind hs).trans (hquote.kind_eq cs)
    obtain ⟨hint, hfloat⟩ := hquote.ne_number
    rw [hsame] at hkind
    exact absurd hkind (not_or.mpr ⟨hint, hfloat⟩)

theorem first_of_scan (hc : c ∈ Radix.decimal.digits) (h : Number.scan c cs = ⟨kind, cs.length, []⟩) :
    first c cs = .token kind.token cs.length [] := by
  have hword : ∀ d ∈ Radix.decimal.digits, ¬ Word.isStart d = true := List.all_iff_forall_prop.mp (by decide)
  apply first_eq_literal_iff.mpr
  rw [← h]
  exact .number (hword c hc) (Number.isDigit_iff.mpr hc)

theorem first_int_iff : first c cs = .token .int cs.length [] ↔ IsInteger (c :: cs) := by
  constructor
  · intro h
    have hint : first c cs = .token LiteralKind.int.token cs.length [] := h
    rcases isNumber_of_first (.inl rfl) hint with ⟨hc, hscan⟩ | ⟨-, -, hscan⟩
    · exact (Number.scan_int_iff hc).mp hscan
    · cases congrArg LiteralScan.kind hscan
  · intro h
    have hc : c ∈ Radix.decimal.digits := by
      cases h with
      | decimal hc => exact Radix.mem_digits_decimal_iff.mpr (.inr hc)
      | octal => decide
      | marked => decide
    exact first_of_scan hc ((Number.scan_int_iff hc).mpr h)

theorem first_float_iff : first c cs = .token .float cs.length [] ↔ IsFloat (c :: cs) := by
  constructor
  · intro h
    have hfloat : first c cs = .token LiteralKind.float.token cs.length [] := h
    rcases isNumber_of_first (.inr rfl) hfloat with ⟨hc, hscan⟩ | ⟨rfl, hdigit, hscan⟩
    · exact (Number.scan_float_iff hc).mp hscan
    · cases cs with
      | nil => cases hdigit
      | cons d ds => exact (Number.scanFraction_eq_iff (Number.isDigit_iff.mp hdigit)).mp hscan
  · intro h
    by_cases hc : c ∈ Radix.decimal.digits
    · exact first_of_scan hc ((Number.scan_float_iff hc).mpr h)
    · cases h with
      | point hdigit => exact absurd hdigit hc
      | power hdigit => exact absurd hdigit hc
      | @fraction d ds power hdigit hcs hpower =>
        have hscan := (Number.scanFraction_eq_iff hdigit).mpr (.fraction hdigit hcs hpower)
        have hhead : (d :: (ds ++ power)).head?.any (Number.isDigit .decimal) = true := Number.isDigit_iff.mpr hdigit
        have hfirst := (IsFirst.fraction rfl hhead).first_eq
        rwa [hscan] at hfirst

end Piece

/-- All that the text is read as, without a fault, is one token of the kind, the terminator for the end of the
input and the end token. -/
def SoleToken (text : String) (kind : Kind) : Prop :=
  ∃ t semi eof : Token, (Lexer.ofText text ⟨1⟩).tokenize = ([t, semi, eof], []) ∧ t.kind = kind ∧ t.text = text ∧
    semi.isImplicitSemi = true ∧ eof.kind = .eof

theorem soleToken_iff {text : String} {kind : Kind} (hkind : kind.isLiteral = true) :
    SoleToken text kind ↔ IsToken text kind := by
  constructor
  · rintro ⟨t, semi, eof, htokenize, rfl, htext, -⟩
    refine isToken_of_head (Kind.isWordOrLiteral_of_isLiteral hkind) (by rw [htokenize]) ?_
    rw [htokenize, List.head?_cons, Option.map_some, htext]
  · intro h
    obtain ⟨t, stop, htokenize, ht, htext⟩ := h.tokenize hkind
    exact ⟨t, _, _, htokenize, ht, htext, rfl, rfl⟩

/-- A text is read as one integer exactly if it is written as one, and as one float exactly if it is written as
one. -/
theorem tokenize_numeral (text : String) :
    (SoleToken text .int ↔ IsInteger text.toList) ∧ (SoleToken text .float ↔ IsFloat text.toList) := by
  have hsole : ∀ {kind : Kind} {Written : List Char → Prop}, kind.isLiteral = true → ¬ Written [] →
      (∀ c cs, Piece.first c cs = .token kind cs.length [] ↔ Written (c :: cs)) →
      (SoleToken text kind ↔ Written text.toList) := by
    intro kind Written hkind hnil hcons
    rw [soleToken_iff hkind, IsToken]
    cases text.toList with
    | nil => simpa using hnil
    | cons c cs =>
      rw [← hcons]
      constructor
      · rintro ⟨_, _, htext, hfirst⟩
        cases htext
        exact hfirst
      · exact fun hfirst => ⟨c, cs, rfl, hfirst⟩
  exact ⟨hsole rfl (fun h => by cases h) fun _ _ => Piece.first_int_iff,
    hsole rfl (fun h => by cases h) fun _ _ => Piece.first_float_iff⟩

end RoseLang
