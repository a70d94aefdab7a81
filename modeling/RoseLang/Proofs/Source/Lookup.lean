import Mathlib.Data.Prod.Lex
import RoseLang.Proofs.Source.LineMap
import RoseLang.Source.Pos

/-!
# Looking places up

The line and column of an offset tell which offset it was: further on in the text, a place has a later line, or the
same line and a later column. The lines of a text, each looked up by its number, are all there, and joined by line
feeds they are the text.
-/

namespace RoseLang

namespace Text

theorem rtakeWhile_append_of_pos {α : Type} {p : α → Bool} (as : List α) {bs : List α}
    (h : ∀ b ∈ bs, p b = true) : (as ++ bs).rtakeWhile p = as.rtakeWhile p ++ bs := by
  have hreverse : ∀ b ∈ bs.reverse, p b = true := by simpa using h
  rw [List.rtakeWhile, List.reverse_append, List.takeWhile_append_of_pos hreverse, List.reverse_append,
    List.reverse_reverse, List.rtakeWhile]

variable {bytes : List UInt8} {o p : Nat}

/-- A line feed between two offsets makes the line greater, and without one the columns are as far apart as the
offsets. -/
theorem line_lt_or_column_eq (hle : o ≤ p) (hp : p ≤ bytes.length) :
    line bytes o < line bytes p ∨ line bytes o = line bytes p ∧ column bytes p = column bytes o + (p - o) := by
  have htake : bytes.take p = bytes.take o ++ (bytes.drop o).take (p - o) := by
    rw [← List.take_add, Nat.add_sub_cancel' hle]
  rw [line, line, column, column, htake, List.count_append]
  by_cases hfeed : lineFeed ∈ (bytes.drop o).take (p - o)
  · left
    have hpos := List.count_pos_iff.mpr hfeed
    omega
  · right
    have hnone : ∀ b ∈ (bytes.drop o).take (p - o), decide (b ≠ lineFeed) = true := by
      intro b hb
      apply decide_eq_true
      rintro rfl
      exact hfeed hb
    rw [List.count_eq_zero_of_not_mem hfeed, rtakeWhile_append_of_pos _ hnone, List.length_append, List.length_take,
      List.length_drop]
    omega

theorem line_le (bytes : List UInt8) (o : Nat) : line bytes o ≤ bytes.length + 1 := by
  have hcount := List.count_le_length (a := lineFeed) (l := bytes.take o)
  have htake := List.length_take_le' o bytes
  rw [line]
  omega

theorem column_le (bytes : List UInt8) (o : Nat) : column bytes o ≤ bytes.length + 1 := by
  have hrun := (List.rtakeWhile_suffix (· ≠ lineFeed) (bytes.take o)).length_le
  have htake := List.length_take_le' o bytes
  rw [column]
  omega

end Text

namespace LineMap

theorem lineColumn_lt {source : String} {o p : Nat} (h : o < p) (hp : p ≤ source.utf8ByteSize) :
    toLex ((ofText source).lineColumn o) < toLex ((ofText source).lineColumn p) := by
  have hlength : p ≤ (Text.bytes source).length := hp
  rw [lineColumn_ofText (Nat.le_trans (Nat.le_of_lt h) hp), lineColumn_ofText hp, Prod.Lex.toLex_lt_toLex]
  apply (Text.line_lt_or_column_eq (Nat.le_of_lt h) hlength).imp_right
  rintro ⟨hline, hcolumn⟩
  refine ⟨hline, ?_⟩
  dsimp only
  omega

theorem lineCount_ofText (source : String) : (ofText source).lineCount = (source.toList.splitOn '\n').length := by
  rw [lineCount, ofText, List.length_cons, length_splitOn_newline 0]

theorem lineCount_le (source : String) : (ofText source).lineCount ≤ source.utf8ByteSize + 1 := by
  rw [lineCount, ofText_eq, List.length_cons, length_startsIn]
  exact Nat.succ_le_succ List.count_le_length

theorem le_of_mem_startsIn {offset start : Nat} {bs : List UInt8} (h : start ∈ startsIn offset bs) :
    start ≤ offset + bs.length := by
  induction bs generalizing offset with
  | nil => cases h
  | cons b bs ih =>
    have hrest : start ∈ startsIn (offset + 1) bs → start ≤ offset + (b :: bs).length := by
      intro hmem
      have := ih hmem
      rw [List.length_cons]
      omega
    rw [startsIn] at h
    split at h
    · rcases List.mem_cons.mp h with rfl | h
      · simp
      · exact hrest h
    · exact hrest h

theorem start_le (source : String) : ∀ start ∈ (ofText source).starts, start ≤ source.utf8ByteSize := by
  rw [ofText_eq, List.forall_mem_cons]
  refine ⟨Nat.zero_le _, fun start hmem => ?_⟩
  have hle := le_of_mem_startsIn hmem
  rwa [Nat.zero_add, Text.length_bytes] at hle

/-- The lines of a text by their numbers. -/
theorem map_lineText (source : String) :
    (List.range (ofText source).lineCount).map (fun n => (ofText source).lineText source (n + 1)) =
      ((source.toList.splitOn '\n').map String.ofList).map some := by
  apply List.ext_getElem
  · rw [List.length_map, List.length_map, List.length_map, List.length_range, lineCount_ofText]
  · intro n hn hn'
    rw [List.length_map, List.length_map] at hn'
    rw [List.getElem_map, List.getElem_range, lineText_ofText, List.getElem_map, List.getElem_map,
      List.getElem?_eq_getElem hn', Option.map_some]

theorem intercalate_lines (source : String) :
    "\n".intercalate ((source.toList.splitOn '\n').map String.ofList) = source := by
  apply String.toList_injective
  have hchars : ((source.toList.splitOn '\n').map String.ofList).map String.toList = source.toList.splitOn '\n' := by
    simp [List.map_map, Function.comp_def]
  rw [String.toList_intercalate, hchars]
  exact List.intercalate_splitOn '\n'

theorem isSome_lineText_iff (source : String) (n : Nat) :
    ((ofText source).lineText source n).isSome = true ↔ 1 ≤ n ∧ n ≤ (ofText source).lineCount := by
  cases n with
  | zero => simp [lineText]
  | succ n =>
    rw [lineText_ofText, Option.isSome_map, lineCount_ofText]
    simp only [isSome_getElem?, Nat.le_add_left, true_and]
    exact Nat.lt_iff_add_one_le

/-- Looking up the line and column of every offset of a text and the text of every line of it. -/
theorem lookup_ofText {source : String} (h : source.utf8ByteSize < Pos.last.index) :
    let m := ofText source
    let size := source.utf8ByteSize
    (∀ o ≤ size, m.lineColumn o = (Text.line (Text.bytes source) o, Text.column (Text.bytes source) o)) ∧
      (∀ o p, o < p → p ≤ size → toLex (m.lineColumn o) < toLex (m.lineColumn p)) ∧
      (∀ o ≤ size, ∀ p ≤ size, m.lineColumn o = m.lineColumn p → o = p) ∧
      (∀ n, (m.lineText source n).isSome = true ↔ 1 ≤ n ∧ n ≤ m.lineCount) ∧
      (∃ lines, (List.range m.lineCount).map (fun n => m.lineText source (n + 1)) = lines.map some ∧
        "\n".intercalate lines = source) ∧
      (∀ start ∈ m.starts, start ≤ Pos.last.index) ∧ m.lineCount ≤ Pos.last.index ∧
      ∀ o ≤ size, (m.lineColumn o).1 ≤ Pos.last.index ∧ (m.lineColumn o).2 ≤ Pos.last.index := by
  intro m size
  have hlast : size + 1 ≤ Pos.last.index := h
  have hlt : ∀ o p, o < p → p ≤ size → toLex (m.lineColumn o) < toLex (m.lineColumn p) :=
    fun o p hop hp => lineColumn_lt hop hp
  refine ⟨fun o ho => lineColumn_ofText ho, hlt, fun o ho p hp hsame => ?_, isSome_lineText_iff source,
    ⟨_, map_lineText source, intercalate_lines source⟩, fun start hstart => ?_,
    Nat.le_trans (lineCount_le source) hlast, fun o ho => ?_⟩
  · rcases Nat.lt_trichotomy o p with hop | hop | hop
    · exact absurd (congrArg toLex hsame) (ne_of_lt (hlt o p hop hp))
    · exact hop
    · exact absurd (congrArg toLex hsame).symm (ne_of_lt (hlt p o hop ho))
  · have hle := start_le source start hstart
    omega
  · have hline := Text.line_le (Text.bytes source) o
    have hcolumn := Text.column_le (Text.bytes source) o
    rw [Text.length_bytes] at hline hcolumn
    rw [lineColumn_ofText ho]
    exact ⟨Nat.le_trans hline hlast, Nat.le_trans hcolumn hlast⟩

/-- Two line feeds after a letter of two bytes: an empty line in the middle and one at the end. -/
theorem lookup_ofText_emptyLines :
    let source := "é\n\n"
    let m := ofText source
    source.utf8ByteSize < Pos.last.index ∧
      (m.lineColumn 2, m.lineColumn 3, m.lineColumn 4) = ((1, 3), (2, 1), (3, 1)) ∧
      toLex (m.lineColumn 2) < toLex (m.lineColumn 3) ∧ m.lineText source 3 = some "" ∧
      m.lineText source 4 = none := by
  have hsize : "é\n\n".utf8ByteSize < Pos.last.index := by decide +kernel
  exact ⟨hsize, by decide +kernel, (lookup_ofText hsize).2.1 2 3 (by decide) (by decide +kernel), by decide +kernel,
    by decide +kernel⟩

end LineMap

end RoseLang
