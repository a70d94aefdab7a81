import RoseLang.Proofs.Source.Lookup

/-!
# Places of characters

The place of a character, told by the characters before it: its line counts their line feeds, its column the bytes of
those since the last line feed. The text of the line goes on from these with the character itself.
-/

namespace RoseLang.Text

/-- The characters since the last line feed. -/
def sinceFeed (cs : List Char) : List Char := cs.rtakeWhile (· ≠ '\n')

theorem count_lineFeed (cs : List Char) :
    (cs.flatMap String.utf8EncodeChar).count lineFeed = cs.count '\n' := by
  induction cs with
  | nil => rfl
  | cons c cs ih =>
    rw [List.flatMap_cons, List.count_append, ih]
    by_cases hc : c = '\n'
    · subst hc
      rw [List.count_cons_self, Nat.add_comm]
      rfl
    · rw [List.count_eq_zero_of_not_mem (lineFeed_notMem_utf8EncodeChar hc), List.count_cons_of_ne hc, Nat.zero_add]

theorem rtakeWhile_ne_lineFeed (cs : List Char) :
    (cs.flatMap String.utf8EncodeChar).rtakeWhile (· ≠ lineFeed) =
      (sinceFeed cs).flatMap String.utf8EncodeChar := by
  induction cs using List.reverseRecOn with
  | nil => rfl
  | append_singleton cs c ih =>
    rw [List.flatMap_append, List.flatMap_singleton, sinceFeed]
    by_cases hc : c = '\n'
    · subst hc
      rw [List.rtakeWhile_concat_neg _ _ _ (by simp)]
      exact List.rtakeWhile_concat_neg _ _ _ (by simp [lineFeed])
    · have hnone : ∀ b ∈ String.utf8EncodeChar c, decide (b ≠ lineFeed) = true := fun b hb =>
        decide_eq_true (ne_of_mem_of_not_mem hb (lineFeed_notMem_utf8EncodeChar hc))
      rw [rtakeWhile_append_of_pos _ hnone, ih, List.rtakeWhile_concat_pos _ _ _ (by simpa using hc),
        List.flatMap_append, List.flatMap_singleton]
      rfl

section
variable {source : String} {before : List Char} (h : before <+: source.toList)
include h

theorem take_bytes : (bytes source).take (utf8Length before) = before.flatMap String.utf8EncodeChar := by
  obtain ⟨rest, hrest⟩ := h
  rw [bytes_eq_flatMap, ← hrest, List.flatMap_append, ← length_flatMap_utf8EncodeChar, List.take_left']
  rfl

theorem line_utf8Length : line (bytes source) (utf8Length before) = before.count '\n' + 1 := by
  rw [line, take_bytes h, count_lineFeed]

theorem column_utf8Length : column (bytes source) (utf8Length before) = utf8Length (sinceFeed before) + 1 := by
  rw [column, take_bytes h, rtakeWhile_ne_lineFeed, length_flatMap_utf8EncodeChar]

end

theorem length_splitOn (cs : List Char) : (cs.splitOn '\n').length = cs.count '\n' + 1 := by
  rw [LineMap.length_splitOn_newline 0, LineMap.startsFrom_eq, LineMap.length_startsIn, count_lineFeed]

theorem newline_notMem_sinceFeed (cs : List Char) : '\n' ∉ sinceFeed cs := fun h => by
  simpa using List.mem_rtakeWhile_imp h

theorem sinceFeed_of_notMem {cs : List Char} (h : '\n' ∉ cs) : sinceFeed cs = cs :=
  List.rtakeWhile_eq_self_iff.mpr fun _ hc => decide_eq_true (ne_of_mem_of_not_mem hc h)

theorem sinceFeed_append {cs : List Char} (before : List Char) (h : '\n' ∉ cs) :
    sinceFeed (before ++ cs) = sinceFeed before ++ cs :=
  rtakeWhile_append_of_pos before fun _ hc => decide_eq_true (ne_of_mem_of_not_mem hc h)

theorem exists_lastFeed {cs : List Char} (h : '\n' ∈ cs) : ∃ first, cs = first ++ '\n' :: sinceFeed cs := by
  have happend : cs.rdropWhile (· ≠ '\n') ++ sinceFeed cs = cs := List.rdropWhile_append_rtakeWhile
  have hne : cs.rdropWhile (· ≠ '\n') ≠ [] := by
    intro hnil
    rw [hnil, List.nil_append] at happend
    rw [← happend] at h
    exact newline_notMem_sinceFeed cs h
  have hlast : (cs.rdropWhile (· ≠ '\n')).getLast hne = '\n' := by
    simpa using List.rdropWhile_last_not (· ≠ '\n') cs hne
  have hconcat := List.dropLast_append_getLast hne
  rw [hlast] at hconcat
  exact ⟨(cs.rdropWhile (· ≠ '\n')).dropLast, by rw [List.append_cons, hconcat, happend]⟩

theorem head_splitOn {line : List Char} (h : '\n' ∉ line) (rest : List Char) :
    ((line ++ rest).splitOn '\n')[0]? = some (line ++ rest.takeWhile (· ≠ '\n')) := by
  by_cases hfeed : '\n' ∈ rest
  · obtain ⟨more, after, rfl, hmore⟩ := List.eq_append_cons_of_mem hfeed
    have htake : (more ++ '\n' :: after).takeWhile (· ≠ '\n') = more := by
      rw [List.takeWhile_append_of_pos fun _ hc => decide_eq_true (ne_of_mem_of_not_mem hc hmore),
        List.takeWhile_cons_of_neg (by simp), List.append_nil]
    have hline : '\n' ∉ line ++ more := fun hmem => (List.mem_append.mp hmem).elim h hmore
    rw [htake, ← List.append_assoc, List.splitOn_append_cons_self_of_not_mem hline]
    rfl
  · have htake : rest.takeWhile (· ≠ '\n') = rest :=
      List.takeWhile_eq_self_iff.mpr fun _ hc => decide_eq_true (ne_of_mem_of_not_mem hc hfeed)
    have hline : '\n' ∉ line ++ rest := fun hmem => (List.mem_append.mp hmem).elim h hfeed
    rw [htake, List.splitOn_eq_singleton hline]
    rfl

/-- The text of the line that is reached after some characters. -/
theorem getElem?_splitOn (before rest : List Char) :
    ((before ++ rest).splitOn '\n')[before.count '\n']? =
      some (sinceFeed before ++ rest.takeWhile (· ≠ '\n')) := by
  by_cases hfeed : '\n' ∈ before
  · obtain ⟨first, hbefore⟩ := exists_lastFeed hfeed
    have hcount : before.count '\n' = (first.splitOn '\n').length := by
      rw [hbefore, List.count_append, List.count_cons_self, length_splitOn,
        List.count_eq_zero_of_not_mem (newline_notMem_sinceFeed before)]
    have hsplit : (before ++ rest).splitOn '\n' =
        first.splitOn '\n' ++ (sinceFeed before ++ rest).splitOn '\n' := by
      conv_lhs => rw [hbefore, List.append_assoc, List.cons_append, List.splitOn_append_cons_self]
    rw [hsplit, hcount, List.getElem?_append_right (Nat.le_refl _), Nat.sub_self,
      head_splitOn (newline_notMem_sinceFeed before)]
  · rw [List.count_eq_zero_of_not_mem hfeed, sinceFeed_of_notMem hfeed, head_splitOn hfeed]

end RoseLang.Text
