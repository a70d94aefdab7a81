import RoseLang.Proofs.Token.Literals
import RoseLang.Proofs.Token.Numeral

/-!
# The grammar of quoted literals

`IsChar`, `IsString` and `IsRawString` say how a literal between quotes is written. A text is read as one of these
literals exactly if it is written so. The elements between the quotes of a character or a string are read one after
the other: what is read as an escape without a fault is one, and an escape is read whole whatever comes after it.
-/

namespace RoseLang

/-! ### The grammar -/

/-- What stands after the backslash of an escape. -/
inductive IsEscape : List Char → Prop where
  | letter {c : Char} (hc : c ∈ ['a', 'b', 'f', 'n', 'r', 't', 'v', '\\', '\x27', '\x22']) : IsEscape [c]
  | octal {ds : List Char} (hlength : ds.length = 3) (hds : ∀ d ∈ ds, d ∈ Radix.octal.digits) : IsEscape ds
  | hexadecimal {c : Char} {ds : List Char} (hlength : (c, ds.length) ∈ [('x', 2), ('u', 4), ('U', 8)])
      (hds : ∀ d ∈ ds, d ∈ Radix.hexadecimal.digits) : IsEscape (c :: ds)

/-- What a literal between such quotes is made of. -/
inductive IsElement (quote : Char) : List Char → Prop where
  | plain {c : Char} (hc : c ∉ ['\n', '\\', quote]) : IsElement quote [c]
  | escape {cs : List Char} (hcs : IsEscape cs) : IsElement quote ('\\' :: cs)

/-- So many elements between two quotes. -/
def IsQuoted (quote : Char) (n : Nat) (cs : List Char) : Prop :=
  ∃ es : List (List Char), es.length = n ∧ (∀ e ∈ es, IsElement quote e) ∧ cs = quote :: (es.flatten ++ [quote])

def IsChar (cs : List Char) : Prop := IsQuoted '\x27' 1 cs

def IsString (cs : List Char) : Prop := ∃ n, IsQuoted '\x22' n cs

def IsRawString (cs : List Char) : Prop := ∃ inner, '\x60' ∉ inner ∧ cs = '\x60' :: (inner ++ ['\x60'])

namespace QuotedLiteral

variable {radix : Radix} {quote : Char} {cs ds rest : List Char} {n more offset : Nat}

/-! ### Escapes -/

theorem escapeDigits_append (hds : ∀ d ∈ ds, d ∈ radix.digits) (rest : List Char) :
    escapeDigits radix ds.length (ds ++ rest) = (ds.length, none) := by
  induction ds with
  | nil => rw [List.length_nil, escapeDigits]
  | cons d ds ih =>
    obtain ⟨hd, hds⟩ := List.forall_mem_cons.mp hds
    rw [List.length_cons, List.cons_append, escapeDigits, if_pos (Number.isDigit_iff.mpr hd), ih hds]

theorem digits_of_escapeDigits (h : escapeDigits radix n cs = (more, none)) :
    more = n ∧ n ≤ cs.length ∧ ∀ d ∈ cs.take n, d ∈ radix.digits := by
  induction n generalizing cs more with
  | zero =>
    obtain ⟨rfl, -⟩ := Prod.mk.inj h
    simp
  | succ n ih =>
    cases cs with
    | nil => cases h
    | cons c cs =>
      rw [escapeDigits] at h
      split at h
      · next hdigit =>
        obtain ⟨rest, hrest, rfl⟩ := exists_of_add_one h
        obtain ⟨rfl, hle, hdigits⟩ := ih hrest
        refine ⟨rfl, Nat.succ_le_succ hle, ?_⟩
        rw [List.take_succ_cons, List.forall_mem_cons]
        exact ⟨Number.isDigit_iff.mp hdigit, hdigits⟩
      · cases h

theorem hexEscape?_eq_some_iff {c : Char} : hexEscape? c = some n ↔ (c, n) ∈ [('x', 2), ('u', 4), ('U', 8)] := by
  rw [hexEscape?]
  split
  · simp_all [eq_comm]
  · split
    · simp_all [eq_comm]
    · split <;> simp_all [eq_comm]

/-- The characters that tell how an escape goes on tell it apart from the other ones. -/
theorem escape_append (h : IsEscape cs) (rest : List Char) : escape (cs ++ rest) = (cs.length, none) := by
  cases h with
  | @letter c hc =>
    have hsimple : simpleEscapes.contains c = true := List.contains_iff_mem.mpr hc
    rw [List.singleton_append, escape, if_pos hsimple, List.length_singleton]
  | octal hlength hds =>
    have hdigits := escapeDigits_append hds rest
    cases cs with
    | nil => cases hlength
    | cons d ds =>
      have hd := hds d List.mem_cons_self
      have hsimple : ∀ d ∈ Radix.octal.digits, simpleEscapes.contains d = false :=
        List.all_iff_forall_prop.mp (by decide)
      rw [hlength] at hdigits ⊢
      rw [List.cons_append] at hdigits ⊢
      rw [escape, hsimple d hd, if_neg Bool.false_ne_true, if_pos (Number.isDigit_iff.mpr hd), hdigits]
  | @hexadecimal c ds hlength hds =>
    have hneither : ∀ p ∈ [('x', 2), ('u', 4), ('U', 8)],
        ¬ simpleEscapes.contains p.1 = true ∧ ¬ Number.isDigit .octal p.1 = true := by decide
    obtain ⟨hsimple, hdigit⟩ := hneither _ hlength
    rw [List.cons_append, escape, if_neg hsimple, if_neg hdigit, hexEscape?_eq_some_iff.mpr hlength]
    dsimp only
    rw [escapeDigits_append hds, List.length_cons]

theorem isEscape_of_escape (h : escape cs = (n, none)) : IsEscape (cs.take n) := by
  cases cs with
  | nil => cases h
  | cons c cs =>
    rw [escape] at h
    split at h
    · next hsimple =>
      obtain ⟨rfl, -⟩ := Prod.mk.inj h
      exact .letter (List.contains_iff_mem.mp hsimple)
    · split at h
      · obtain ⟨rfl, hle, hdigits⟩ := digits_of_escapeDigits h
        exact .octal (List.length_take_of_le hle) hdigits
      · split at h
        · next digits hhex =>
          obtain ⟨more, hmore, rfl⟩ := exists_of_add_one h
          obtain ⟨rfl, hle, hdigits⟩ := digits_of_escapeDigits hmore
          rw [List.take_succ_cons]
          apply IsEscape.hexadecimal _ hdigits
          rw [List.length_take_of_le hle]
          exact hexEscape?_eq_some_iff.mp hhex
        · split at h <;> cases h

/-! ### Bodies -/

/-- An element is read in one step, whatever comes after it. -/
theorem body_element (hquote : quote ≠ '\\') (h : IsElement quote cs) (rest : List Char) :
    body quote offset (cs ++ rest) =
      let next := body quote (offset + Text.utf8Length cs) rest
      ⟨cs.length + next.length, 1 + next.elements, next.closed, next.faults⟩ := by
  cases h with
  | @plain c hc =>
    simp only [List.mem_cons, List.not_mem_nil, or_false, not_or] at hc
    obtain ⟨hline, hescape, hquote⟩ := hc
    rw [List.singleton_append, body, if_neg hline, if_neg hquote, if_neg hescape]
    rfl
  | @escape cs hcs =>
    have hstop : offset + 1 + Text.utf8Length cs = offset + Text.utf8Length ('\\' :: cs) := by
      rw [Text.utf8Length_cons, Nat.add_assoc]
      rfl
    rw [List.cons_append, body, if_neg (by decide), if_neg hquote.symm, if_pos rfl, escape_append hcs]
    dsimp only
    rw [List.take_left, List.drop_left, hstop, List.length_cons, Nat.add_comm 1]
    rfl

theorem body_flatten (hquote : quote ∉ ['\n', '\\']) {es : List (List Char)} (hes : ∀ e ∈ es, IsElement quote e) :
    body quote offset (es.flatten ++ [quote]) = ⟨(es.flatten ++ [quote]).length, es.length, true, []⟩ := by
  simp only [List.mem_cons, List.not_mem_nil, or_false, not_or] at hquote
  induction es generalizing offset with
  | nil =>
    rw [List.flatten_nil, List.nil_append, body, if_neg hquote.1, if_pos rfl]
    rfl
  | cons e es ih =>
    obtain ⟨he, hes⟩ := List.forall_mem_cons.mp hes
    rw [List.flatten_cons, List.append_assoc, body_element hquote.2 he, ih hes]
    rw [Body.mk.injEq]
    exact ⟨List.length_append.symm, Nat.add_comm _ _, rfl, rfl⟩

theorem elements_of_body (hclosed : (body quote offset cs).closed = true) (hfaults : (body quote offset cs).faults = [])
    (hlength : (body quote offset cs).length = cs.length) :
    ∃ es : List (List Char), es.length = (body quote offset cs).elements ∧ (∀ e ∈ es, IsElement quote e) ∧
      cs = es.flatten ++ [quote] := by
  fun_induction body quote offset cs with
  | case1 offset => cases hclosed
  | case2 offset cs => cases hclosed
  | case3 offset cs hline =>
    obtain rfl := List.length_eq_zero_iff.mp (Nat.succ.inj hlength).symm
    exact ⟨[], rfl, by simp, rfl⟩
  | case4 offset cs length fault hescape stop next hline hquote ih =>
    obtain ⟨hfault, hrest⟩ := List.append_eq_nil_iff.mp hfaults
    obtain rfl : fault = none := by simpa using hfault
    have hwhole : next.length = (cs.drop length).length := by
      have hle := escape_le cs
      rw [hescape] at hle
      rw [List.length_drop]
      simp only [List.length_cons] at hlength
      omega
    obtain ⟨es, hes, helements, hdrop⟩ := ih hclosed hrest hwhole
    refine ⟨('\\' :: cs.take length) :: es, ?_, ?_, ?_⟩
    · rw [List.length_cons, hes, Nat.add_comm]
    · rw [List.forall_mem_cons]
      exact ⟨.escape (isEscape_of_escape hescape), helements⟩
    · rw [List.flatten_cons, List.append_assoc, ← hdrop, List.cons_append, List.take_append_drop]
  | case5 offset c cs hline hquote hescape next ih =>
    have hwhole : next.length = cs.length := by
      simp only [List.length_cons] at hlength
      omega
    obtain ⟨es, hes, helements, hcs⟩ := ih hclosed hfaults hwhole
    refine ⟨[c] :: es, ?_, ?_, ?_⟩
    · rw [List.length_cons, hes, Nat.add_comm]
    · rw [List.forall_mem_cons]
      refine ⟨.plain ?_, helements⟩
      simp [hline, hescape, hquote]
    · rw [List.flatten_cons, List.append_assoc, ← hcs, List.singleton_append]

/-! ### Scans -/

theorem scan_eq_iff {kind : LiteralKind} (hquote : quote ∉ ['\n', '\\']) :
    scan kind quote cs = ⟨kind, cs.length, []⟩ ↔
      ∃ n, IsQuoted quote n (quote :: cs) ∧ (kind = .char → n = 1) := by
  constructor
  · intro h
    simp only [scan, LiteralScan.mk.injEq, true_and, List.append_eq_nil_iff] at h
    obtain ⟨hlength, hfaults, hfault⟩ := h
    have hclosed : (body quote 1 cs).closed = true := by
      cases hclosed : (body quote 1 cs).closed with
      | true => rfl
      | false => simp [hclosed] at hfault
    obtain ⟨es, hes, helements, hcs⟩ := elements_of_body hclosed hfaults hlength
    refine ⟨_, ⟨es, rfl, helements, congrArg (quote :: ·) hcs⟩, fun hchar => ?_⟩
    simpa [hclosed, hchar, hes] using hfault
  · rintro ⟨n, ⟨es, rfl, helements, hcs⟩, hchar⟩
    obtain rfl := (List.cons.inj hcs).2
    have hcount : ¬ (kind = .char ∧ es.length ≠ 1) := fun h => h.2 (hchar h.1)
    rw [scan, body_flatten hquote helements]
    simp [hcount]

/-- A raw string is all that stands before the next quote. -/
theorem scanRaw_eq_iff : scanRaw cs = ⟨.rawString, cs.length, []⟩ ↔ IsRawString ('\x60' :: cs) := by
  constructor
  · intro h
    rw [scanRaw] at h
    split at h
    · have hsplit := List.takeWhile_append_dropWhile (p := (· ≠ '\x60')) (l := cs)
      have hstop := List.head?_dropWhile_not (· ≠ '\x60') cs
      have hlength := (LiteralScan.mk.inj h).2.1
      rw [← congrArg List.length hsplit, List.length_append, Nat.add_left_cancel_iff] at hlength
      obtain ⟨d, hd⟩ := List.length_eq_one_iff.mp hlength.symm
      rw [hd] at hsplit hstop
      obtain rfl : d = '\x60' := by simpa using hstop
      refine ⟨cs.takeWhile (· ≠ '\x60'), fun hmem => ?_, congrArg ('\x60' :: ·) hsplit.symm⟩
      simpa using List.all_eq_true.mp List.all_takeWhile _ hmem
    · simp at h
  · rintro ⟨inner, hinner, hcs⟩
    obtain rfl := (List.cons.inj hcs).2
    have hpos : ∀ c ∈ inner, decide (c ≠ '\x60') = true := by
      intro c hc
      apply decide_eq_true
      rintro rfl
      exact hinner hc
    have htake : (inner ++ ['\x60']).takeWhile (· ≠ '\x60') = inner := by
      rw [List.takeWhile_append_of_pos hpos, List.takeWhile_cons_of_neg (by simp), List.append_nil]
    rw [scanRaw, htake, List.length_append, List.length_singleton, if_pos (Nat.lt_succ_self _)]

end QuotedLiteral

/-! ### The tokens of a text -/

theorem soleToken_quoted_iff {kind : LiteralKind} {quote : Char} {scan : List Char → LiteralScan}
    (hquote : IsQuote kind quote scan) (text : String) :
    SoleToken text kind.token ↔ ∃ cs, text.toList = quote :: cs ∧ scan cs = ⟨kind, cs.length, []⟩ := by
  have hliteral : kind.token.isLiteral = true := by cases kind <;> rfl
  rw [soleToken_iff hliteral, IsToken]
  constructor
  · rintro ⟨c, cs, htext, hfirst⟩
    obtain ⟨rfl, hscan⟩ := (Piece.isLiteral_quoted_iff hquote).mp (Piece.first_eq_literal_iff.mp hfirst)
    exact ⟨cs, htext, hscan⟩
  · rintro ⟨cs, htext, hscan⟩
    have hliteral := (Piece.isLiteral_quoted_iff hquote).mpr ⟨rfl, hscan⟩
    exact ⟨quote, cs, htext, Piece.first_eq_literal_iff.mpr hliteral⟩

theorem IsQuoted.eq_cons {quote : Char} {n : Nat} {cs : List Char} (h : IsQuoted quote n cs) :
    ∃ ds, cs = quote :: ds := by
  obtain ⟨es, -, -, hcs⟩ := h
  exact ⟨_, hcs⟩

/-- A text is read as one character exactly if it is written as one, as one string exactly if it is written as one,
and as one raw string exactly if it is written as one. -/
theorem tokenize_quotation (text : String) :
    (SoleToken text .char ↔ IsChar text.toList) ∧ (SoleToken text .string ↔ IsString text.toList) ∧
      (SoleToken text .rawString ↔ IsRawString text.toList) := by
  have hchar := soleToken_quoted_iff .char text
  have hstring := soleToken_quoted_iff .string text
  have hraw := soleToken_quoted_iff .raw text
  refine ⟨hchar.trans ⟨?_, ?_⟩, hstring.trans ⟨?_, ?_⟩, hraw.trans ⟨?_, ?_⟩⟩
  · rintro ⟨cs, htext, hscan⟩
    obtain ⟨n, hquoted, hone⟩ := (QuotedLiteral.scan_eq_iff (by decide)).mp hscan
    rw [htext, IsChar, ← hone rfl]
    exact hquoted
  · intro h
    obtain ⟨cs, htext⟩ := IsQuoted.eq_cons h
    rw [htext] at h
    exact ⟨cs, htext, (QuotedLiteral.scan_eq_iff (by decide)).mpr ⟨1, h, fun _ => rfl⟩⟩
  · rintro ⟨cs, htext, hscan⟩
    obtain ⟨n, hquoted, -⟩ := (QuotedLiteral.scan_eq_iff (by decide)).mp hscan
    exact ⟨n, htext ▸ hquoted⟩
  · rintro ⟨n, h⟩
    obtain ⟨cs, htext⟩ := h.eq_cons
    rw [htext] at h
    exact ⟨cs, htext, (QuotedLiteral.scan_eq_iff (by decide)).mpr ⟨n, h, fun hkind => by cases hkind⟩⟩
  · rintro ⟨cs, htext, hscan⟩
    rw [htext]
    exact QuotedLiteral.scanRaw_eq_iff.mp hscan
  · intro h
    obtain ⟨inner, -, htext⟩ := id h
    exact ⟨_, htext, QuotedLiteral.scanRaw_eq_iff.mpr (htext ▸ h)⟩

end RoseLang
