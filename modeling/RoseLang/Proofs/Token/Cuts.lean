import RoseLang.Proofs.Token.Pieces

/-!
# Tokens cut out of their text

Where a scan ends is decided by the characters it has gone over and at most by the next one, and there
the end of the text does as well: a token without a fault that is cut out of its text, with nothing after
it, is the same token.
-/

namespace RoseLang

theorem takeWhile_take {α : Type} {p : α → Bool} {as : List α} {n : Nat} (h : (as.takeWhile p).length ≤ n) :
    (as.take n).takeWhile p = as.takeWhile p := by
  rw [← List.take_takeWhile]
  exact List.take_of_length_le h

theorem head?_any_take {α : Type} {p : α → Bool} {as : List α} (n : Nat) (h : as.head?.any p = false) :
    (as.take n).head?.any p = false := by
  cases as with
  | nil => rw [List.take_nil]; rfl
  | cons a as =>
    cases n with
    | zero => rfl
    | succ n => exact h

/-! ### Numbers -/

namespace Number

variable {cs : List Char} {n : Nat}

theorem scan_take {first : Char} (h : (scan first cs).more ≤ n) : scan first (cs.take n) = scan first cs := by
  have hle : (scan first (cs.take n ++ cs.drop n)).more ≤ (cs.take n).length := by
    rw [List.take_append_drop, List.length_take]
    exact Nat.le_min.mpr ⟨h, more_scan_le first cs⟩
  have hscan := (endsToo_nil (cs.drop n)).scan hle
  rwa [List.append_nil, List.take_append_drop] at hscan

theorem scanFraction_take (h : (scanFraction cs).more ≤ n) : scanFraction (cs.take n) = scanFraction cs := by
  have hle : (scanFraction (cs.take n ++ cs.drop n)).more ≤ (cs.take n).length := by
    rw [List.take_append_drop, List.length_take]
    exact Nat.le_min.mpr ⟨h, more_scanFraction_le cs⟩
  have hscan := (endsToo_nil (cs.drop n)).scanFraction hle
  rwa [List.append_nil, List.take_append_drop] at hscan

theorem more_scanFraction_pos (h : cs.head?.any (isDigit .decimal) = true) : 0 < (scanFraction cs).more := by
  cases cs with
  | nil => cases h
  | cons d ds =>
    have hdigit : isDigit .decimal d = true := h
    have hd : isRunPart .decimal d = true := by
      rw [isRunPart, hdigit]
      simp
    rw [scanFraction]
    dsimp only
    rw [more_scanned, digitRun, List.takeWhile_cons, if_pos hd, List.length_cons, Nat.add_right_comm]
    exact Nat.succ_pos _

/-- A fraction that starts with a digit keeps it. -/
theorem head?_any_take_scanFraction (h : cs.head?.any (isDigit .decimal) = true) :
    (cs.take (scanFraction cs).more).head?.any (isDigit .decimal) = true := by
  rw [List.head?_take, if_neg (Nat.ne_of_gt (more_scanFraction_pos h))]
  exact h

end Number

/-! ### Quoted literals -/

namespace QuotedLiteral

variable {kind : LiteralKind} {quote : Char} {cs : List Char} {n : Nat}

theorem scan_take (h : (scan kind quote cs).faults = []) (hn : (scan kind quote cs).more ≤ n) :
    scan kind quote (cs.take n) = scan kind quote cs :=
  scan_of_isPrefix h (List.take_prefix_take_left hn)

theorem scanRaw_take (h : (scanRaw cs).faults = []) (hn : (scanRaw cs).more ≤ n) : scanRaw (cs.take n) = scanRaw cs :=
  scanRaw_of_isPrefix h (List.take_prefix_take_left hn)

end QuotedLiteral

/-! ### Signs -/

namespace Sign

/-- The kind is that of a sign which is read from its spelling. -/
def Whole (kind : Kind) : Prop :=
  match kind.spelling.toList with
  | [] => False
  | c :: cs => kind? c cs = some kind

instance (kind : Kind) : Decidable (Whole kind) := by
  rw [Whole]
  split <;> infer_instance

variable {c : Char} {cs word : List Char} {kind : Kind}

theorem mem_of_kind? (h : kind? c cs = some kind) : kind ∈ Kind.signs := by
  have hassign : ∀ {short long : Kind} {ds : List Char}, short ∈ Kind.signs → long ∈ Kind.signs →
      withAssign short long ds = kind → kind ∈ Kind.signs := by
    rintro short long ds hshort hlong rfl
    rw [withAssign.eq_def]
    split
    · exact hlong
    · exact hshort
  rw [kind?.eq_def] at h
  split at h
  all_goals first
    | exact hassign (by decide) (by decide) (Option.some.inj h)
    | (split at h <;> first
        | exact hassign (by decide) (by decide) (Option.some.inj h)
        | (cases h <;> decide))
    | (cases h <;> decide)

/-- A sign on its own is read as itself. -/
theorem kind?_of_spelling (hkind : kind ∈ Kind.signs) (hword : kind.spelling.toList = c :: word) :
    kind? c word = some kind := by
  have hall : ∀ k ∈ Kind.signs, Whole k := by decide
  have hwhole := hall kind hkind
  rw [Whole, hword] at hwhole
  exact hwhole

/-- A sign is read from its own characters alone. -/
theorem kind?_take (h : kind? c cs = some kind) :
    kind? c (cs.take (kind.spelling.length - 1)) = some kind := by
  have hprefix := kind?_spelling h
  obtain ⟨d, word, hword⟩ := kind.spelling_eq_cons
  rw [hword] at hprefix
  obtain ⟨rfl, rest, rfl⟩ := List.cons_prefix_cons.mp hprefix
  have hlength : kind.spelling.length - 1 = word.length := by
    rw [← String.length_toList, hword, List.length_cons, Nat.add_sub_cancel]
  rw [hlength, List.take_left]
  exact kind?_of_spelling (mem_of_kind? h) hword

end Sign

/-! ### Pieces -/

namespace Piece

/-- Lifts to its piece what holds of the scan of a literal without a fault. -/
theorem ofLiteral_take {scan : List Char → LiteralScan} {cs : List Char} {kind : Kind} {more : Nat}
    (hscan : (scan cs).faults = [] → (scan cs).more ≤ more → scan (cs.take more) = scan cs)
    (h : ofLiteral (scan cs) = .token kind more []) : ofLiteral (scan (cs.take more)) = .token kind more [] := by
  obtain ⟨-, hmore, hfaults⟩ := ofLiteral_eq_token.mp h
  rw [hscan hfaults (Nat.le_of_eq hmore), h]

theorem head?_take_ne {d : Char} {cs : List Char} (n : Nat) (h : cs.head? ≠ some d) : (cs.take n).head? ≠ some d := by
  cases cs with
  | nil =>
    rw [List.take_nil]
    exact h
  | cons c cs =>
    cases n with
    | zero => exact nofun
    | succ n => exact h

/-- A token without a fault is read from its own characters alone. -/
theorem first_take {c : Char} {cs : List Char} {kind : Kind} {more : Nat} (h : first c cs = .token kind more []) :
    first c (cs.take more) = .token kind more [] := by
  have hfirst := isFirst_first c cs
  generalize first c cs = p at h hfirst
  refine IsFirst.first_eq ?_
  cases hfirst with
  | blank | line | lineComment | blockComment | points | illegal => cases h
  | word hc =>
    have hmore : (cs.takeWhile Word.isPart).length = more := (token.inj h).2.1
    rw [← h, ← takeWhile_take (Nat.le_of_eq hmore)]
    exact .word hc
  | number hword hc => exact ofLiteral_take (fun _ => Number.scan_take) h ▸ .number hword hc
  | char hc => exact ofLiteral_take QuotedLiteral.scan_take h ▸ .char hc
  | string hc => exact ofLiteral_take QuotedLiteral.scan_take h ▸ .string hc
  | raw hc => exact ofLiteral_take QuotedLiteral.scanRaw_take h ▸ .raw hc
  | fraction hc hcs =>
    refine ofLiteral_take (fun _ => Number.scanFraction_take) h ▸ .fraction hc ?_
    obtain ⟨-, hmore, -⟩ := ofLiteral_eq_token.mp h
    exact hmore ▸ Number.head?_any_take_scanFraction hcs
  | sign hc hcomment hpoint hkind =>
    obtain ⟨rfl, rfl, -⟩ := token.inj h
    exact .sign hc (fun hslash => ⟨head?_take_ne _ (hcomment hslash).1, head?_take_ne _ (hcomment hslash).2⟩)
      (fun hdot => head?_any_take _ (hpoint hdot)) (Sign.kind?_take hkind)

/-- A token without a fault that is cut out of its text is read again. -/
theorem first_of_append {c : Char} {cs after : List Char} {kind : Kind}
    (h : first c (cs ++ after) = .token kind cs.length []) : first c cs = .token kind cs.length [] := by
  have htake := first_take h
  rwa [List.take_left] at htake

end Piece

end RoseLang
