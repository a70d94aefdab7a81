import RoseLang.Proofs.Diagnostic.Shown
import RoseLang.Proofs.Source.Characters
import RoseLang.Proofs.Token.Cover

/-!
# Marks under characters

A mark stands as many columns to the right as there are bytes before its character on the line. So it stands below
the character if these bytes are as many characters, and further to the right if one of them has more bytes. Where
labels of both styles hold a character, the mark is that of the secondary one, which is painted last.
-/

namespace RoseLang

open Text

instance (sp : Span) (index : Nat) : Decidable (sp.Holds index) := inferInstanceAs (Decidable (_ ∧ _))

/-- The label covers something on a single line, and cuts no character. -/
def Label.Proper (file : SourceFile) (source : String) (label : Label) : Prop :=
  ∃ before cs, label.span.Covers ⟨file.base⟩ source.toList before cs ∧ cs ≠ [] ∧ '\n' ∉ cs

/-- The character comes after those of `before` in the source, on the line with the number `n`. -/
structure Text.OnLine (source : String) (n : Nat) (before : List Char) (c : Char) : Prop where
  chars : before ++ [c] <+: source.toList
  ne : c ≠ '\n'
  line : before.count '\n' + 1 = n

/-- The mark of the first of the styles that meets the condition, or else a blank. -/
def LabelStyle.firstMark (held : LabelStyle → Prop) [DecidablePred held] : List LabelStyle → Char
  | [] => ' '
  | style :: styles => if held style then style.mark else firstMark held styles

theorem LabelStyle.firstMark_congr {held held' : LabelStyle → Prop} [DecidablePred held] [DecidablePred held']
    (h : ∀ style, held style ↔ held' style) (styles : List LabelStyle) :
    firstMark held styles = firstMark held' styles := by
  induction styles with
  | nil => rfl
  | cons style styles ih => simp only [firstMark, h, ih]

theorem LabelStyle.firstMark_swap {held : LabelStyle → Prop} [DecidablePred held] {s t : LabelStyle}
    (h : ¬ (held s ∧ held t)) : firstMark held [s, t] = firstMark held [t, s] := by
  by_cases hs : held s
  · have ht : ¬ held t := fun ht => h ⟨hs, ht⟩
    simp only [firstMark, if_pos hs, if_neg ht]
  · simp only [firstMark, if_neg hs]

namespace Diagnostic

/-- A label of the style that starts on the line with the number `n` holds the byte. -/
def Marks (file : SourceFile) (d : Diagnostic) (n index : Nat) (style : LabelStyle) : Prop :=
  ∃ label ∈ d.labels, label.StartsOn file n ∧ label.style = style ∧ label.span.Holds index

instance (file : SourceFile) (d : Diagnostic) (n index : Nat) : DecidablePred (d.Marks file n index) := fun style =>
  inferInstanceAs (Decidable (∃ label ∈ d.labels, label.StartsOn file n ∧ label.style = style ∧ label.span.Holds index))

/-- The mark of the first of the styles in which a label that starts on the line holds the byte. -/
def mark (file : SourceFile) (d : Diagnostic) (n index : Nat) (styles : List LabelStyle) : Char :=
  LabelStyle.firstMark (d.Marks file n index) styles

end Diagnostic

/-! ### Places on a line -/

section
variable {name source : String} {base : Nat} {file : SourceFile} {before : List Char}

theorem Text.utf8Length_mono {cs ds : List Char} (h : cs <+: ds) : utf8Length cs ≤ utf8Length ds := by
  obtain ⟨rest, rfl⟩ := h
  rw [utf8Length_append]
  exact Nat.le_add_right _ _

theorem SourceFile.position_of_index (hfile : ofText name base source = .ok file) (h : before <+: source.toList)
    {p : Pos} (hvalid : p.isValid = true) (hp : p.index = file.base + utf8Length before) :
    (file.position p).isValid = true ∧ (file.position p).line = before.count '\n' + 1 ∧
      (file.position p).column = utf8Length (sinceFeed before) + 1 := by
  obtain ⟨-, rfl⟩ := ofText_eq_ok_iff.mp hfile
  have hle : utf8Length before ≤ source.utf8ByteSize := by
    rw [utf8ByteSize_eq]
    exact utf8Length_mono h
  have hcontains : contains ⟨name, base, source.utf8ByteSize, .ofText source⟩ p = true := by
    rw [contains_iff, hp]
    exact ⟨Nat.le_add_right _ _, Nat.add_le_add_left hle _⟩
  have hoffset : offset ⟨name, base, source.utf8ByteSize, .ofText source⟩ p = utf8Length before := by
    rw [offset, hp, Nat.add_sub_cancel_left, Nat.min_eq_left hle]
  rw [position, hvalid, hcontains, Bool.and_self, if_pos rfl]
  dsimp only
  rw [hoffset, LineMap.lineColumn_ofText hle, line_utf8Length h, column_utf8Length h]
  exact ⟨decide_eq_true (Nat.succ_pos _), rfl, rfl⟩

/-- On one line, columns are as far apart as the characters. -/
theorem Text.utf8Length_sinceFeed {before' : List Char} (h : before <+: source.toList)
    (h' : before' <+: source.toList) (hline : before.count '\n' = before'.count '\n') :
    utf8Length (sinceFeed before) + utf8Length before' = utf8Length (sinceFeed before') + utf8Length before := by
  have hbound : ∀ {cs}, cs <+: source.toList → utf8Length cs ≤ (bytes source).length := fun hcs => by
    rw [length_bytes, utf8ByteSize_eq]
    exact utf8Length_mono hcs
  have hsame : line (bytes source) (utf8Length before) = line (bytes source) (utf8Length before') := by
    rw [line_utf8Length h, line_utf8Length h', hline]
  have hcolumn := column_utf8Length h
  have hcolumn' := column_utf8Length h'
  rcases Nat.le_total (utf8Length before) (utf8Length before') with hle | hle
  · rcases line_lt_or_column_eq hle (hbound h') with hlt | ⟨-, happart⟩ <;> omega
  · rcases line_lt_or_column_eq hle (hbound h) with hlt | ⟨-, happart⟩ <;> omega

/-- What starts a text ends before a character of it or behind that. -/
theorem Text.utf8Length_le_or_le {c : Char} {cs text : List Char} (hcs : cs <+: text) (h : before ++ [c] <+: text) :
    utf8Length cs ≤ utf8Length before ∨ utf8Length before + c.utf8Size ≤ utf8Length cs := by
  have hall : utf8Length (before ++ [c]) = utf8Length before + c.utf8Size := by simp
  rcases List.prefix_or_prefix_of_prefix hcs h with hshort | hlong
  · rcases List.prefix_concat_iff.mp hshort with rfl | hshort
    · exact .inr (Nat.le_of_eq hall.symm)
    · exact .inl (utf8Length_mono hshort)
  · exact .inr (hall ▸ utf8Length_mono hlong)

/-! ### Marks of labels -/

namespace Snippet

theorem utf8Length_pos {cs : List Char} (h : cs ≠ []) : 0 < utf8Length cs := by
  obtain ⟨c, cs, rfl⟩ := List.exists_cons_of_ne_nil h
  exact Nat.lt_of_lt_of_le c.utf8Size_pos (Nat.le_add_right _ _)

/-- A label that covers characters of one line reaches over as many columns as they have bytes. -/
theorem annotate_of_covers (hfile : SourceFile.ofText name base source = .ok file) {label : Label} {cs : List Char}
    (hcovers : label.span.Covers ⟨file.base⟩ source.toList before cs) (hne : cs ≠ []) (hfeed : '\n' ∉ cs) {n : Nat}
    (hstarts : label.StartsOn file n) :
    before.count '\n' + 1 = n ∧ (annotate file source label).column = utf8Length (sinceFeed before) + 1 ∧
      (annotate file source label).stop = utf8Length (sinceFeed before) + utf8Length cs + 1 := by
  have hpos := utf8Length_pos hne
  have hbefore : before <+: source.toList := (List.prefix_append before cs).trans hcovers.chars
  obtain ⟨hvalid, rfl⟩ := hstarts
  obtain ⟨-, hline, hcolumn⟩ := SourceFile.position_of_index hfile hbefore
    (SourceFile.contains_of_position hvalid).1 hcovers.start
  have hstop : label.span.stop.index = file.base + utf8Length (before ++ cs) := by
    rw [hcovers.stop, hcovers.start, utf8Length_append, Nat.add_assoc]
  have hstopPos : label.span.stop.isValid = true := decide_eq_true (by rw [hcovers.stop]; omega)
  obtain ⟨hstopValid, hstopLine, hstopColumn⟩ := SourceFile.position_of_index hfile hcovers.chars hstopPos hstop
  rw [List.count_append, List.count_eq_zero_of_not_mem hfeed, Nat.add_zero] at hstopLine
  rw [sinceFeed_append before hfeed, utf8Length_append] at hstopColumn
  refine ⟨hline.symm, hcolumn, ?_⟩
  have hstopOn : stopColumn file source (file.position label.span.start).line label.span.stop =
      utf8Length (sinceFeed before) + utf8Length cs + 1 := by
    rw [stopColumn, lineColumn?, if_pos hstopValid]
    dsimp only
    rw [if_pos (hstopLine.trans hline.symm), hstopColumn]
  rw [annotate]
  dsimp only
  rw [hstopOn, Label.column, hcolumn]
  omega

/-- A label covers the columns of a character on its line if it holds the character. -/
theorem covers_iff_holds (hfile : SourceFile.ofText name base source = .ok file) {label : Label} {n : Nat}
    (hstarts : label.StartsOn file n) (hproper : label.Proper file source) {c : Char}
    (hc : OnLine source n before c) {j : Nat} (hj : j < c.utf8Size) :
    (annotate file source label).Covers (utf8Length (sinceFeed before) + j + 1) ↔
      label.span.Holds (file.base + utf8Length before) := by
  obtain ⟨first, cs, hcovers, hne, hfeed⟩ := hproper
  obtain ⟨hline, hcolumn, hstop⟩ := annotate_of_covers hfile hcovers hne hfeed hstarts
  have hfirst : first <+: source.toList := (List.prefix_append first cs).trans hcovers.chars
  have hbefore : before <+: source.toList := (List.prefix_append before [c]).trans hc.chars
  have hsame : before.count '\n' = first.count '\n' := by
    have hcline := hc.line
    omega
  have happart := utf8Length_sinceFeed hbefore hfirst hsame
  -- neither end of the label lies inside the bytes of the character
  have hstartCut := utf8Length_le_or_le hfirst hc.chars
  have hstopCut := utf8Length_le_or_le hcovers.chars hc.chars
  have hstart : label.span.start.index = file.base + utf8Length first := hcovers.start
  rw [utf8Length_append] at hstopCut
  show (annotate file source label).column ≤ _ ∧ _ < (annotate file source label).stop ↔ _
  rw [Span.Holds, hcolumn, hstop, hcovers.stop, hstart]
  omega

/-- The last annotation that covers a column is a primary one only if no secondary one covers it. -/
theorem not_covers_of_find? {annotations : List Annotation} {column : Nat} {a : Annotation}
    (h : annotations.Pairwise fun a b => a.style.rank ≤ b.style.rank)
    (ha : annotations.reverse.find? (fun a => a.column ≤ column && column < a.stop) = some a)
    (hprimary : a.style = .primary) : ¬ ∃ b ∈ annotations, b.style = .secondary ∧ b.Covers column := by
  rintro ⟨b, hb, hsecondary, hcovers⟩
  -- seen from the end, all before what is found does not cover the column, and all behind it is primary
  obtain ⟨-, later, earlier, hsplit, hlater⟩ := List.find?_eq_some_iff_append.mp ha
  have hpairwise := List.pairwise_reverse.mpr h
  rw [hsplit, List.pairwise_append, List.pairwise_cons] at hpairwise
  rw [← List.mem_reverse, hsplit] at hb
  rcases List.mem_append.mp hb with hb | hb
  · have hnot := hlater b hb
    simp [hcovers.1, hcovers.2] at hnot
  · rcases List.mem_cons.mp hb with rfl | hb
    · rw [hprimary] at hsecondary
      cases hsecondary
    · have hrank := hpairwise.2.1.1 b hb
      rw [hprimary, hsecondary] at hrank
      exact absurd hrank (by decide)

/-- Where primary annotations come before secondary ones, a column has the mark of a secondary one if there is one
that covers it. -/
theorem markAt_of_pairwise {annotations : List Annotation} {column : Nat}
    (h : annotations.Pairwise fun a b => a.style.rank ≤ b.style.rank) :
    markAt annotations column = LabelStyle.firstMark (fun style =>
      ∃ a ∈ annotations, a.style = style ∧ a.Covers column) [.secondary, .primary] := by
  rw [markAt]
  split
  · next a ha =>
    obtain ⟨hmem, hcovers⟩ := covers_of_find? ha
    cases hstyle : a.style with
    | secondary => exact (if_pos ⟨a, hmem, hstyle, hcovers⟩).symm
    | primary =>
      rw [LabelStyle.firstMark, if_neg (not_covers_of_find? h ha hstyle)]
      exact (if_pos ⟨a, hmem, hstyle, hcovers⟩).symm
  · next hnone =>
    have hblank : ∀ a ∈ annotations, ¬ a.Covers column := by
      refine markAt_eq_blank_iff.mp ?_
      rw [markAt, hnone]
    have hnot : ∀ style, ¬ ∃ a ∈ annotations, a.style = style ∧ a.Covers column := by
      rintro style ⟨a, ha, -, hcovers⟩
      exact hblank a ha hcovers
    rw [LabelStyle.firstMark, if_neg (hnot _), LabelStyle.firstMark, if_neg (hnot _)]
    rfl

theorem markAt_shownLabels (hfile : SourceFile.ofText name base source = .ok file) {d : Diagnostic} {n : Nat}
    (hproper : ∀ label ∈ d.labels, label.StartsOn file n → label.Proper file source) {c : Char}
    (hc : OnLine source n before c) {j : Nat} (hj : j < c.utf8Size) :
    markAt ((shownLabels file d.labels n).map (annotate file source)) (utf8Length (sinceFeed before) + j + 1) =
      d.mark file n (file.base + utf8Length before) [.secondary, .primary] := by
  have hpairwise : ((shownLabels file d.labels n).map (annotate file source)).Pairwise fun a b =>
      a.style.rank ≤ b.style.rank := by
    refine List.pairwise_map.mpr ((Label.ordered_mergeSort _).pairwise.imp fun hbefore => ?_)
    rcases hbefore with hlt | ⟨heq, -⟩
    · exact Nat.le_of_lt hlt
    · exact Nat.le_of_eq (congrArg LabelStyle.rank heq)
  have hcovers : ∀ label ∈ d.labels, label.StartsOn file n →
      ((annotate file source label).Covers (utf8Length (sinceFeed before) + j + 1) ↔
        label.span.Holds (file.base + utf8Length before)) := fun label hlabel hstarts =>
    covers_iff_holds hfile hstarts (hproper label hlabel hstarts) hc hj
  rw [markAt_of_pairwise hpairwise, Diagnostic.mark]
  refine LabelStyle.firstMark_congr (fun style => ⟨?_, ?_⟩) _
  · rintro ⟨a, ha, hstyle, hcolumn⟩
    obtain ⟨label, hlabel, rfl⟩ := List.mem_map.mp ha
    obtain ⟨hmem, hstarts⟩ := mem_shownLabels.mp hlabel
    exact ⟨label, hmem, hstarts, hstyle, (hcovers label hmem hstarts).mp hcolumn⟩
  · rintro ⟨label, hmem, hstarts, hstyle, hholds⟩
    exact ⟨_, List.mem_map_of_mem (mem_shownLabels.mpr ⟨hmem, hstarts⟩), hstyle,
      (hcovers label hmem hstarts).mpr hholds⟩

end Snippet

/-! ### Rows of marks -/

/-- The mark right below the character that comes after those of `before`. -/
def Shown.markBelow (row : Shown) (before : List Char) : Char := row.marks.toList.getD (sinceFeed before).length ' '

theorem Text.utf8Length_eq_length {cs : List Char} (h : ∀ c ∈ cs, c.utf8Size = 1) : utf8Length cs = cs.length := by
  induction cs with
  | nil => rfl
  | cons c cs ih =>
    rw [List.forall_mem_cons] at h
    rw [utf8Length_cons, h.1, ih h.2, List.length_cons, Nat.add_comm]

/-- The text of a line and the marks under it are equally far from the left. If the labels that start on the line cover
whole characters of it, the marks of a character stand as far to the right as there are bytes before it on the line. So
below a character with none but characters of one byte before it stands its own mark: that of a secondary label if one
holds the character, else that of a primary one. -/
theorem Diagnostic.render_marks (hfile : SourceFile.ofText name base source = .ok file) (d : Diagnostic) :
    ∃ shown, d.Shows file source shown ∧ ∀ row ∈ shown,
      (padLeft (Shown.gutter shown + 1) (toString row.line) ++ " | ").length =
        (Shown.margin (Shown.gutter shown) ++ " ").length ∧
      ((∀ label ∈ d.labels, label.StartsOn file row.line → label.Proper file source) →
        ∀ before c, OnLine source row.line before c →
          let index := file.base + utf8Length before
          row.text.toList[(sinceFeed before).length]? = some c ∧
          (∀ j < c.utf8Size, row.marks.toList.getD (utf8Length (sinceFeed before) + j) ' ' =
            d.mark file row.line index [.secondary, .primary]) ∧
          ((∀ b ∈ sinceFeed before, b.utf8Size = 1) →
            ¬ (d.Marks file row.line index .primary ∧ d.Marks file row.line index .secondary) →
            row.markBelow before = d.mark file row.line index [.primary, .secondary])) := by
  have hshows := Snippet.shows_shown file source d
  refine ⟨_, hshows, fun row hrow => ⟨hshows.length_left hrow, fun hproper before c hc => ?_⟩⟩
  have hmarks : ∀ j < c.utf8Size, row.marks.toList.getD (utf8Length (sinceFeed before) + j) ' ' =
      d.mark file row.line (file.base + utf8Length before) [.secondary, .primary] := by
    intro j hj
    obtain ⟨n, -, rfl⟩ := List.mem_map.mp hrow
    rw [Snippet.shownLine, String.toList_ofList, Snippet.getD_underline]
    exact Snippet.markAt_shownLabels hfile hproper hc hj
  refine ⟨?_, hmarks, fun hbytes hsingle => ?_⟩
  · obtain ⟨after, hsource⟩ := hc.chars
    rw [List.append_assoc, List.singleton_append] at hsource
    have hline := hshows.line_eq hfile hrow
    rw [← hc.line, Nat.add_sub_cancel, ← hsource, getElem?_splitOn, Option.some.injEq,
      List.takeWhile_cons_of_pos (by simpa using hc.ne)] at hline
    rw [← hline, List.getElem?_append_right (Nat.le_refl _), Nat.sub_self, List.getElem?_cons_zero]
  · have hfirst := hmarks 0 c.utf8Size_pos
    rw [Nat.add_zero, utf8Length_eq_length hbytes] at hfirst
    exact hfirst.trans (LabelStyle.firstMark_swap fun hboth => hsingle hboth.symm)

end

/-- Two marks under the two bytes of the first character, and behind them the mark of the second one. -/
theorem Diagnostic.render_marks_twoBytes :
    let source := "éa"
    let file : SourceFile := ⟨"f", 1, 3, .ofText source⟩
    let d : Diagnostic := ⟨none, "m", [⟨⟨⟨1⟩, ⟨3⟩⟩, .primary, none⟩, ⟨⟨⟨3⟩, ⟨4⟩⟩, .secondary, none⟩], [], none⟩
    SourceFile.ofText "f" 1 source = .ok file ∧ (∀ label ∈ d.labels, label.Proper file source) ∧
      OnLine source 1 [] 'é' ∧ OnLine source 1 ['é'] 'a' ∧
      ∃ shown, d.Shows file source shown ∧ 1 ∈ shown.map Shown.line ∧ ∀ row ∈ shown, row.line = 1 →
        row.markBelow [] = '^' ∧ row.text.toList[1]? = some 'a' ∧
          row.marks.toList.getD 1 ' ' = '^' ∧ row.marks.toList.getD 2 ' ' = '-' := by
  intro source file d
  have hfile : SourceFile.ofText "f" 1 source = .ok file := rfl
  have hproper : ∀ label ∈ d.labels, label.Proper file source :=
    List.forall_mem_cons.mpr ⟨⟨[], ['é'], ⟨by decide, rfl, rfl⟩, by decide, by decide⟩,
      List.forall_mem_singleton.mpr ⟨['é'], ['a'], ⟨by decide, rfl, rfl⟩, by decide, by decide⟩⟩
  have hfirst : OnLine source 1 [] 'é' := ⟨by decide, by decide, rfl⟩
  have hsecond : OnLine source 1 ['é'] 'a' := ⟨by decide, by decide, rfl⟩
  obtain ⟨shown, hshows, hmarks⟩ := Diagnostic.render_marks hfile d
  refine ⟨hfile, hproper, hfirst, hsecond, shown, hshows, ?_, fun row hrow hline => ?_⟩
  · exact (hshows.mem_lines 1).mpr ⟨_, List.mem_cons_self, by decide⟩
  · have hrowMarks := (hmarks row hrow).2 fun label hlabel _ => hproper label hlabel
    rw [hline] at hrowMarks
    have hnothing : ∀ b ∈ sinceFeed [], b.utf8Size = 1 := List.forall_mem_nil _
    obtain ⟨-, hbytes, hbelow⟩ := hrowMarks [] 'é' hfirst
    obtain ⟨htext, hbytes', -⟩ := hrowMarks ['é'] 'a' hsecond
    exact ⟨(hbelow hnothing (by decide)).trans (by decide), htext, (hbytes 1 (by decide)).trans (by decide),
      (hbytes' 0 (by decide)).trans (by decide)⟩

/-! ### Marks that do not stand below their characters -/

theorem Shown.eq_singleton {shown : List Shown} {n : Nat} (hincrease : (shown.map Shown.line).Pairwise (· < ·))
    (hlines : ∀ k, k ∈ shown.map Shown.line ↔ k = n) : ∃ row, shown = [row] ∧ row.line = n := by
  match shown with
  | [] => exact absurd ((hlines n).mpr rfl) List.not_mem_nil
  | [row] => exact ⟨row, rfl, (hlines row.line).mp (List.mem_singleton_self _)⟩
  | row :: next :: more =>
    have hlt : row.line < next.line := (List.pairwise_cons.mp hincrease).1 _ List.mem_cons_self
    have hrow : row.line = n := (hlines _).mp List.mem_cons_self
    have hnext : next.line = n := (hlines _).mp (List.mem_cons_of_mem _ List.mem_cons_self)
    omega

/-- The text of a page with a single line and no messages has the marks in it as they are. -/
theorem Diagnostic.join_page (file : SourceFile) (d : Diagnostic) (n : Nat) (text : String) :
    ∃ first last : String, ∀ marks,
      String.join ((d.page file [⟨n, text, marks, []⟩]).map (· ++ "\n")) = first ++ marks ++ last := by
  let gutter := Shown.gutter [⟨n, text, "", []⟩]
  let top := (Snippet.headline d).render false :: (Snippet.placeRow file d).map (Painted.render false) ++
    [Shown.margin gutter, padLeft (gutter + 1) (toString n) ++ " | " ++ text]
  let remarks := (Snippet.remarks d).map (Painted.render false)
  let bottom := (if remarks.isEmpty then [] else [Shown.margin gutter]) ++ remarks
  have hpage : ∀ marks, d.page file [⟨n, text, marks, []⟩] =
      top ++ (Shown.margin gutter ++ " " ++ marks) :: bottom := by
    intro marks
    simp [Diagnostic.page, Shown.gutter, Shown.allRows, Shown.rows, Shown.under, top, bottom, remarks, gutter]
  refine ⟨String.join (top.map (· ++ "\n")) ++ (Shown.margin gutter ++ " "),
    "\n" ++ String.join (bottom.map (· ++ "\n")), fun marks => ?_⟩
  rw [hpage, List.map_append, List.map_cons, String.join_append, String.join_cons]
  simp only [String.append_assoc]

/-- If all labels start on one line and have no messages, the text tells what is shown. -/
theorem Diagnostic.Shows.eq_shown {file : SourceFile} {source : String} {d : Diagnostic} {shown : List Shown} {n : Nat}
    (h : d.Shows file source shown) (hne : d.labels ≠ [])
    (hlabels : ∀ label ∈ d.labels, label.StartsOn file n ∧ label.message = none) :
    shown = Snippet.shown file source d := by
  have hline : ∀ k, (∃ label ∈ d.labels, label.StartsOn file k) ↔ k = n := by
    intro k
    constructor
    · rintro ⟨label, hlabel, -, rfl⟩
      exact (hlabels label hlabel).1.2
    · rintro rfl
      obtain ⟨label, hlabel⟩ := List.exists_mem_of_ne_nil _ hne
      exact ⟨label, hlabel, (hlabels label hlabel).1⟩
  have hsingle : ∀ {rows}, d.Shows file source rows →
      ∃ marks, rows = [⟨n, (file.lineText source n).getD "", marks, []⟩] := by
    intro rows hrows
    obtain ⟨⟨k, text, marks, messages⟩, rfl, rfl⟩ :=
      Shown.eq_singleton hrows.increase fun k => (hrows.mem_lines k).trans (hline k)
    obtain ⟨htext, -, labels, hordered, hmessages⟩ := hrows.tells _ (List.mem_singleton_self _)
    have hnone : messages = [] := by
      refine hmessages.trans (List.filterMap_eq_nil_iff.mpr fun label hlabel => ?_)
      rw [(hlabels label (List.mem_of_mem_filter (hordered.perm.mem_iff.mp hlabel))).2]
      rfl
    exact ⟨marks, by rw [hnone, ← htext]⟩
  -- all but the marks is told from the labels, and the marks stand in the text as they are
  have hshown := Snippet.shows_shown file source d
  obtain ⟨marks, rfl⟩ := hsingle h
  obtain ⟨marks', hshown'⟩ := hsingle hshown
  obtain ⟨first, last, hjoin⟩ := d.join_page file n ((file.lineText source n).getD "")
  have htext := h.render.symm.trans hshown.render
  rw [hshown', hjoin, hjoin] at htext
  have hchars := congrArg String.toList htext
  simp only [String.toList_append, List.append_assoc, List.append_cancel_left_eq, List.append_cancel_right_eq,
    String.toList_inj] at hchars
  rw [hshown', hchars]

/-- The diagnostic has a mark right below each character: that of a primary label that starts on the line and holds
the character, or else that of a secondary one. -/
def Diagnostic.Aligned (file : SourceFile) (source : String) (d : Diagnostic) : Prop :=
  ∃ shown, d.Shows file source shown ∧ ∀ row ∈ shown, ∀ before c, OnLine source row.line before c →
    row.markBelow before = d.mark file row.line (file.base + utf8Length before) [.primary, .secondary]

/-- The mark of the second character does not stand below it if the first one has two bytes, and a character that a
primary and a secondary label hold has the mark of the secondary one. -/
theorem Diagnostic.not_aligned :
    (let source := "éa"
     let file : SourceFile := ⟨"f", 1, 3, .ofText source⟩
     let d : Diagnostic := ⟨none, "m", [⟨⟨⟨3⟩, ⟨4⟩⟩, .primary, none⟩], [], none⟩
     SourceFile.ofText "f" 1 source = .ok file ∧ (∀ label ∈ d.labels, label.Proper file source) ∧
       d.render false file source = "error: m\n  --> f:1:3\n    |\n  1 | éa\n    |   ^\n" ∧
       ¬ d.Aligned file source) ∧
    (let source := "ab"
     let file : SourceFile := ⟨"f", 1, 2, .ofText source⟩
     let d : Diagnostic := ⟨none, "m", [⟨⟨⟨1⟩, ⟨3⟩⟩, .primary, none⟩, ⟨⟨⟨2⟩, ⟨3⟩⟩, .secondary, none⟩], [], none⟩
     SourceFile.ofText "f" 1 source = .ok file ∧ (∀ label ∈ d.labels, label.Proper file source) ∧
       d.render false file source = "error: m\n  --> f:1:1\n    |\n  1 | ab\n    | ^-\n" ∧
       ¬ d.Aligned file source) := by
  constructor
  · intro source file d
    have hproper : ∀ label ∈ d.labels, label.Proper file source :=
      List.forall_mem_singleton.mpr ⟨['é'], ['a'], ⟨by decide, rfl, rfl⟩, by decide, by decide⟩
    refine ⟨rfl, hproper, by cbv, ?_⟩
    rintro ⟨shown, hshows, haligned⟩
    have hshown : Snippet.shown file source d = [⟨1, "éa", "  ^", []⟩] := by cbv
    rw [hshows.eq_shown (n := 1) (by decide) (by decide), hshown] at haligned
    have hmark := haligned _ (List.mem_singleton_self _) ['é'] 'a' ⟨by decide, by decide, rfl⟩
    exact absurd hmark (by decide)
  · intro source file d
    have hproper : ∀ label ∈ d.labels, label.Proper file source :=
      List.forall_mem_cons.mpr ⟨⟨[], ['a', 'b'], ⟨by decide, rfl, rfl⟩, by decide, by decide⟩,
        List.forall_mem_singleton.mpr ⟨['a'], ['b'], ⟨by decide, rfl, rfl⟩, by decide, by decide⟩⟩
    refine ⟨rfl, hproper, by cbv, ?_⟩
    rintro ⟨shown, hshows, haligned⟩
    have hshown : Snippet.shown file source d = [⟨1, "ab", "^-", []⟩] := by cbv
    rw [hshows.eq_shown (n := 1) (by decide) (by decide), hshown] at haligned
    have hmark := haligned _ (List.mem_singleton_self _) ['a'] 'b' ⟨by decide, by decide, rfl⟩
    exact absurd hmark (by decide)

end RoseLang
