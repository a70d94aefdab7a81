import Mathlib.Data.List.DropRight
import RoseLang.Source.LineMap

/-!
# Lines and columns

What a line map answers, read off the bytes of the text: the line of an offset counts the line feeds
before it, the column the bytes since the last of them. No byte of a longer character is a line feed, so
the starts that are found character by character are those that are found byte by byte. The text of a line is
what stands between two line feeds.
-/

namespace RoseLang

namespace Text

/-- The bytes of a text in UTF-8. -/
def bytes (source : String) : List UInt8 := source.toByteArray.data.toList

def lineFeed : UInt8 := 10

/-- The line of a byte offset, counted from 1. -/
def line (bytes : List UInt8) (offset : Nat) : Nat := (bytes.take offset).count lineFeed + 1

/-- The column of a byte offset, counted from 1. -/
def column (bytes : List UInt8) (offset : Nat) : Nat :=
  ((bytes.take offset).rtakeWhile (· ≠ lineFeed)).length + 1

theorem bytes_eq_flatMap (source : String) : bytes source = source.toList.flatMap String.utf8EncodeChar := by
  rw [bytes, ← String.utf8Encode_toList, List.utf8Encode, List.data_toByteArray]

@[simp] theorem length_bytes (source : String) : (bytes source).length = source.utf8ByteSize := rfl

theorem length_flatMap_utf8EncodeChar (cs : List Char) :
    (cs.flatMap String.utf8EncodeChar).length = utf8Length cs := by
  induction cs with
  | nil => rfl
  | cons c cs ih => rw [List.flatMap_cons, List.length_append, ih, String.length_utf8EncodeChar, utf8Length_cons]

theorem utf8ByteSize_eq (s : String) : s.utf8ByteSize = utf8Length s.toList := by
  rw [← length_bytes, bytes_eq_flatMap, length_flatMap_utf8EncodeChar]

theorem suffix_of_dropBytes {n : Nat} {cs ds : List Char} (h : dropBytes n cs = some ds) : ds <:+ cs := by
  fun_induction dropBytes n cs with
  | case1 cs =>
    cases h
    exact List.suffix_rfl
  | case3 n c cs hle ih => exact (ih h).trans (List.suffix_cons c cs)
  | _ => cases h

theorem prefix_of_takeBytes {n : Nat} {cs ds : List Char} (h : takeBytes n cs = some ds) : ds <+: cs := by
  fun_induction takeBytes n cs generalizing ds with
  | case1 cs =>
    cases h
    exact List.nil_prefix
  | case3 n c cs hle ih =>
    obtain ⟨taken, htaken, rfl⟩ := Option.map_eq_some_iff.mp h
    exact List.cons_prefix_cons.mpr ⟨rfl, ih htaken⟩
  | _ => cases h

/-- What is cut out of a text is a part of it. -/
theorem infix_of_sliceBytes {start stop : Nat} {cs ds : List Char} (h : sliceBytes start stop cs = some ds) :
    ds <:+: cs := by
  rw [sliceBytes] at h
  split at h
  · obtain ⟨dropped, hdropped, htaken⟩ := Option.bind_eq_some_iff.mp h
    exact (prefix_of_takeBytes htaken).isInfix.trans (suffix_of_dropBytes hdropped).isInfix
  · cases h

theorem lineFeed_notMem_utf8EncodeChar {c : Char} (hc : c ≠ '\n') : lineFeed ∉ String.utf8EncodeChar c := by
  have hval : c.val.toNat ≠ 10 := fun h => hc (Char.ext (UInt32.toNat_inj.mp h))
  intro hmem
  have hfeed : ∀ n : Nat, lineFeed = UInt8.ofNat n → n % 256 = 10 := by
    intro n h
    have := congrArg UInt8.toNat h
    simpa [lineFeed, eq_comm] using this
  simp only [String.utf8EncodeChar] at hmem
  split_ifs at hmem <;> simp only [List.mem_cons, List.not_mem_nil, or_false] at hmem
  · have := hfeed _ hmem
    omega
  · rcases hmem with h | h <;> have := hfeed _ h <;> omega
  · rcases hmem with h | h | h <;> have := hfeed _ h <;> omega
  · rcases hmem with h | h | h | h <;> have := hfeed _ h <;> omega

end Text

namespace LineMap

open Text (lineFeed)

/-- The line starts after the line feeds that stand in `bytes`, the first of which has the given offset. -/
def startsIn (offset : Nat) : List UInt8 → List Nat
  | [] => []
  | b :: bytes => if b = lineFeed then (offset + 1) :: startsIn (offset + 1) bytes else startsIn (offset + 1) bytes

theorem startsIn_append (offset : Nat) (as bs : List UInt8) :
    startsIn offset (as ++ bs) = startsIn offset as ++ startsIn (offset + as.length) bs := by
  induction as generalizing offset with
  | nil => rfl
  | cons a as ih =>
    have hlength : offset + (a :: as).length = offset + 1 + as.length := by
      rw [List.length_cons]
      omega
    rw [List.cons_append, startsIn, startsIn, ih, hlength]
    split <;> rfl

theorem startsIn_eq_nil {bs : List UInt8} (h : lineFeed ∉ bs) (offset : Nat) : startsIn offset bs = [] := by
  induction bs generalizing offset with
  | nil => rfl
  | cons b bs ih =>
    rw [List.mem_cons, not_or] at h
    rw [startsIn, if_neg (Ne.symm h.1), ih h.2]

theorem startsFrom_eq (offset : Nat) (cs : List Char) :
    startsFrom offset cs = startsIn offset (cs.flatMap String.utf8EncodeChar) := by
  induction cs generalizing offset with
  | nil => rfl
  | cons c cs ih =>
    rw [startsFrom, List.flatMap_cons, startsIn_append, String.length_utf8EncodeChar, ← ih]
    by_cases hc : c = '\n'
    · subst hc
      rfl
    · rw [if_neg hc, startsIn_eq_nil (Text.lineFeed_notMem_utf8EncodeChar hc), List.nil_append]

theorem ofText_eq (source : String) : ofText source = ⟨0 :: startsIn 0 (Text.bytes source)⟩ := by
  rw [ofText, startsFrom_eq, Text.bytes_eq_flatMap]

theorem lt_of_mem_startsIn {offset start : Nat} {bs : List UInt8} (h : start ∈ startsIn offset bs) :
    offset < start := by
  induction bs generalizing offset with
  | nil => cases h
  | cons b bs ih =>
    rw [startsIn] at h
    split at h
    · rcases List.mem_cons.mp h with rfl | h
      · exact Nat.lt_succ_self _
      · exact Nat.lt_of_succ_lt (ih h)
    · exact Nat.lt_of_succ_lt (ih h)

/-- The starts that are reached `n` bytes further on are those in the first `n` bytes. -/
theorem takeWhile_startsIn (offset n : Nat) (bs : List UInt8) :
    (startsIn offset bs).takeWhile (· ≤ offset + n) = startsIn offset (bs.take n) := by
  induction bs generalizing offset n with
  | nil => rw [List.take_nil, startsIn, List.takeWhile_nil]
  | cons b bs ih =>
    cases n with
    | zero =>
      have hbeyond : ∀ start ∈ startsIn offset (b :: bs), ¬ start ≤ offset := fun start hmem =>
        Nat.not_le.mpr (lt_of_mem_startsIn hmem)
      rw [List.take_zero, startsIn, List.takeWhile_eq_nil_iff]
      intro hlength
      simpa using hbeyond _ (List.getElem_mem hlength)
    | succ n =>
      have hreach : offset + (n + 1) = offset + 1 + n := by omega
      rw [List.take_succ_cons, startsIn, startsIn, hreach]
      split
      · rw [List.takeWhile_cons_of_pos (by simp), ih]
      · exact ih _ _

theorem length_startsIn (offset : Nat) (bs : List UInt8) : (startsIn offset bs).length = bs.count lineFeed := by
  induction bs generalizing offset with
  | nil => rfl
  | cons b bs ih =>
    rw [startsIn]
    split
    · next hb => rw [List.length_cons, ih, hb, List.count_cons_self]
    · next hb => rw [ih, List.count_cons_of_ne hb]

/-- The last line starts as many bytes before the end as follow the last line feed. -/
theorem getLastD_startsIn (bs : List UInt8) :
    (startsIn 0 bs).getLastD 0 + (bs.rtakeWhile (· ≠ lineFeed)).length = bs.length := by
  induction bs using List.reverseRecOn with
  | nil => rfl
  | append_singleton bs b ih =>
    rw [startsIn_append, Nat.zero_add, List.length_append, List.length_singleton, startsIn, startsIn]
    by_cases hb : b = lineFeed
    · rw [if_pos hb, List.rtakeWhile_concat_neg _ _ _ (by simpa using hb)]
      simp
    · rw [if_neg hb, List.append_nil, List.rtakeWhile_concat_pos _ _ _ (by simpa using hb),
        List.length_append, List.length_singleton]
      omega

/-- The line and column of an offset, counted on the bytes of the text. -/
theorem lineColumn_ofText {source : String} {offset : Nat} (h : offset ≤ source.utf8ByteSize) :
    (ofText source).lineColumn offset =
      (Text.line (Text.bytes source) offset, Text.column (Text.bytes source) offset) := by
  have hreached : (ofText source).starts.takeWhile (· ≤ offset) =
      0 :: startsIn 0 ((Text.bytes source).take offset) := by
    have htake := takeWhile_startsIn 0 offset (Text.bytes source)
    rw [Nat.zero_add] at htake
    rw [ofText_eq, List.takeWhile_cons_of_pos (by simp), htake]
  have hlast := getLastD_startsIn ((Text.bytes source).take offset)
  have hlength : ((Text.bytes source).take offset).length = offset := List.length_take_of_le h
  rw [lineColumn, hreached, List.getLastD_cons, List.length_cons, length_startsIn, Text.line, Text.column]
  congr 1
  omega

/-! ### Texts of lines -/

theorem startsFrom_append (offset : Nat) {line : List Char} (h : '\n' ∉ line) (rest : List Char) :
    startsFrom offset (line ++ rest) = startsFrom (offset + Text.utf8Length line) rest := by
  induction line generalizing offset with
  | nil => rfl
  | cons c line ih =>
    rw [List.mem_cons, not_or] at h
    rw [List.cons_append, startsFrom, if_neg (Ne.symm h.1), ih _ h.2, Text.utf8Length_cons, Nat.add_assoc]

theorem startsFrom_line (offset : Nat) {line : List Char} (h : '\n' ∉ line) (rest : List Char) :
    startsFrom offset (line ++ '\n' :: rest) =
      (offset + Text.utf8Length line + 1) :: startsFrom (offset + Text.utf8Length line + 1) rest :=
  startsFrom_append offset h _

theorem startsFrom_of_notMem (offset : Nat) {cs : List Char} (h : '\n' ∉ cs) : startsFrom offset cs = [] := by
  rw [← List.append_nil cs, startsFrom_append offset h]
  rfl

theorem length_splitOn_newline (offset : Nat) (cs : List Char) :
    (cs.splitOn '\n').length = (startsFrom offset cs).length + 1 := by
  induction cs generalizing offset with
  | nil => rfl
  | cons c cs ih =>
    rw [List.splitOn_cons_eq_if_modifyHead, startsFrom]
    by_cases hc : c = '\n'
    · rw [if_pos (beq_iff_eq.mpr hc), if_pos hc, List.length_cons, List.length_cons, ih]
    · rw [if_neg (by simpa using hc), if_neg hc, List.length_modifyHead, ih]

theorem lineText_succ (m : LineMap) (source : String) (n : Nat) :
    m.lineText source (n + 1) = m.starts[n]?.bind fun start =>
      (Text.sliceBytes start (((m.starts[n + 1]?).map (· - 1)).getD source.utf8ByteSize) source.toList).map
        String.ofList := by
  rw [lineText, if_neg (Nat.succ_ne_zero n), Nat.add_sub_cancel]
  cases m.starts[n]? with
  | none => rfl
  | some start => cases m.starts[n + 1]? <;> rfl

/-- Once the characters of `before` have been gone over, the lines that are left are those of the other ones. -/
theorem lineText_append (before rest : List Char) {offset : Nat} (hoffset : Text.utf8Length before = offset)
    (n : Nat) :
    lineText ⟨offset :: startsFrom offset rest⟩ (String.ofList (before ++ rest)) (n + 1) =
      (rest.splitOn '\n')[n]?.map String.ofList := by
  -- on the number of the line: the text ends with the first line, or a line feed ends that
  induction n generalizing before rest offset with
  | zero =>
    rw [lineText_succ, String.toList_ofList]
    by_cases h : '\n' ∈ rest
    · obtain ⟨line, more, rfl, hline⟩ := List.eq_append_cons_of_mem h
      have hslice := Text.sliceBytes_append before line ('\n' :: more)
      rw [hoffset, List.append_assoc] at hslice
      rw [startsFrom_line offset hline, List.splitOn_append_cons_self_of_not_mem hline]
      exact congrArg (Option.map String.ofList) hslice
    · have hslice := Text.sliceBytes_append before rest []
      rw [hoffset, List.append_nil] at hslice
      have hsize : (String.ofList (before ++ rest)).utf8ByteSize = offset + Text.utf8Length rest := by
        rw [Text.utf8ByteSize_eq, String.toList_ofList, Text.utf8Length_append, hoffset]
      rw [startsFrom_of_notMem offset h, List.splitOn_eq_singleton h, hsize]
      exact congrArg (Option.map String.ofList) hslice
  | succ n ih =>
    by_cases h : '\n' ∈ rest
    · obtain ⟨line, more, rfl, hline⟩ := List.eq_append_cons_of_mem h
      have hread : Text.utf8Length (before ++ line ++ ['\n']) = offset + Text.utf8Length line + 1 := by
        rw [Text.utf8Length_append, Text.utf8Length_append, hoffset]
        rfl
      have htext : before ++ (line ++ '\n' :: more) = (before ++ line ++ ['\n']) ++ more := by simp
      rw [startsFrom_line offset hline, List.splitOn_append_cons_self_of_not_mem hline, htext]
      exact ih _ _ hread
    · rw [startsFrom_of_notMem offset h, List.splitOn_eq_singleton h]
      rfl

theorem lineText_ofText (source : String) (n : Nat) :
    (ofText source).lineText source (n + 1) = (source.toList.splitOn '\n')[n]?.map String.ofList := by
  have hlines := lineText_append [] source.toList rfl n
  rwa [List.nil_append, String.ofList_toList] at hlines

/-- The line of an offset is one of the text. -/
theorem exists_line (source : String) (offset : Nat) :
    ∃ n line, ((ofText source).lineColumn offset).1 = n + 1 ∧ (source.toList.splitOn '\n')[n]? = some line := by
  let reached := (startsFrom 0 source.toList).takeWhile (· ≤ offset)
  have hreached : ((ofText source).lineColumn offset).1 = reached.length + 1 := by
    rw [lineColumn, ofText, List.takeWhile_cons_of_pos (by simp), List.length_cons]
  have hlt : reached.length < (source.toList.splitOn '\n').length := by
    rw [length_splitOn_newline 0]
    exact Nat.lt_succ_of_le (List.takeWhile_sublist _).length_le
  exact ⟨_, _, hreached, List.getElem?_eq_getElem hlt⟩

end LineMap

end RoseLang
