import Mathlib
import RoseLang.Proofs.Diagnostic.Annotation
import RoseLang.Proofs.Diagnostic.Place

/-!
# The lines that a diagnostic shows

The text of a diagnostic without colour is a page: under the headline and the place come the lines of the source on
which labels start, each with the marks and the messages of these labels. What a page looks like is told from the
lines alone; which lines there are, and what stands under them, is told from the labels.
-/

namespace RoseLang

open Text

/-! ### Pages -/

/-- A line of the source as it is shown: its number, its text, the marks under it, and the messages of its labels with
the columns in which these start. -/
structure Shown where
  line : Nat
  text : String
  marks : String
  messages : List (Nat × String)

namespace Shown

/-- What stands left of the text in a row without a line number. -/
def margin (gutter : Nat) : String := spaces (gutter + 1) ++ " |"

/-- The rows under a line of the source. A single message stands behind the marks; of several each has a row of its
own, the last one first. -/
def under (gutter : Nat) (marks : String) : List (Nat × String) → List String
  | [] => [margin gutter ++ " " ++ marks]
  | [(_, message)] => [margin gutter ++ " " ++ marks ++ " " ++ message]
  | messages =>
    (margin gutter ++ " " ++ marks) :: messages.reverse.map fun (column, message) =>
      margin gutter ++ " " ++ spaces (column - 1) ++ "| " ++ message

def rows (gutter : Nat) (s : Shown) : List String :=
  (padLeft (gutter + 1) (toString s.line) ++ " | " ++ s.text) :: under gutter s.marks s.messages

/-- The rows of all lines, with a row of dots where lines are left out between two of them. -/
def allRows (gutter : Nat) : List Shown → List String
  | [] => []
  | [s] => s.rows gutter
  | s :: next :: more =>
    s.rows gutter ++ (if s.line + 1 < next.line then [spaces gutter ++ " ..."] else [])
      ++ allRows gutter (next :: more)

end Shown

/-- The width of the line numbers on a page: that of the last one, and at least 2. -/
def Shown.gutter (shown : List Shown) : Nat :=
  max ((shown.getLast?.map fun s => (toString s.line).length).getD 0) 2

/-- The rows of a diagnostic that shows the given lines. -/
def Diagnostic.page (file : SourceFile) (d : Diagnostic) (shown : List Shown) : List String :=
  let headline := (Snippet.headline d).render false
  let remarks := (Snippet.remarks d).map (Painted.render false)
  if shown.isEmpty then headline :: remarks
  else
    headline :: (Snippet.placeRow file d).map (Painted.render false)
      ++ Shown.margin (Shown.gutter shown) :: Shown.allRows (Shown.gutter shown) shown
      ++ (if remarks.isEmpty then [] else [Shown.margin (Shown.gutter shown)]) ++ remarks

/-! ### Labels in order -/

/-- The labels in the order in which a line shows them: primary ones before secondary ones, those of one kind by their
columns, and in the order in which they are given where these agree too. -/
structure Label.Ordered (file : SourceFile) (given shown : List Label) : Prop where
  perm : shown.Perm given
  pairwise : shown.Pairwise fun l m =>
    l.style.rank < m.style.rank ∨ l.style = m.style ∧ l.column file ≤ m.column file
  stable : ∀ style column, shown.filter (fun l => l.style = style ∧ l.column file = column) =
    given.filter fun l => l.style = style ∧ l.column file = column

/-- Whether one label may come before another. -/
def Label.before (file : SourceFile) (l m : Label) : Bool :=
  l.style.rank < m.style.rank || (l.style.rank = m.style.rank && l.column file ≤ m.column file)

theorem LabelStyle.rank_injective {s t : LabelStyle} (h : s.rank = t.rank) : s = t := by
  cases s <;> cases t <;> first | rfl | cases h

namespace Label

variable {file : SourceFile}

theorem before_iff {l m : Label} : l.before file m = true ↔
    l.style.rank < m.style.rank ∨ l.style = m.style ∧ l.column file ≤ m.column file := by
  have hrank : l.style.rank = m.style.rank ↔ l.style = m.style := ⟨LabelStyle.rank_injective, congrArg _⟩
  rw [before, Bool.or_eq_true, Bool.and_eq_true, decide_eq_true_iff, decide_eq_true_iff, decide_eq_true_iff, hrank]

theorem before_trans (k l m : Label) (hkl : k.before file l = true) (hlm : l.before file m = true) :
    k.before file m = true := by
  simp only [before, Bool.or_eq_true, Bool.and_eq_true, decide_eq_true_iff] at *
  omega

theorem before_total (l m : Label) : (l.before file m || m.before file l) = true := by
  simp only [before, Bool.or_eq_true, Bool.and_eq_true, decide_eq_true_iff]
  omega

theorem ordered_mergeSort (labels : List Label) : Ordered file labels (labels.mergeSort (before file)) where
  perm := List.mergeSort_perm _ _
  pairwise := (List.pairwise_mergeSort before_trans before_total labels).imp before_iff.mp
  stable style column := by
    let same : Label → Bool := fun l => l.style = style ∧ l.column file = column
    have hsame : (labels.filter same).Pairwise fun l m => l.before file m = true := by
      refine List.pairwise_of_forall_mem_list fun l hl m hm => ?_
      obtain ⟨hstyle, hcolumn⟩ : l.style = style ∧ l.column file = column :=
        of_decide_eq_true (List.mem_filter.mp hl).2
      obtain ⟨hstyle', hcolumn'⟩ : m.style = style ∧ m.column file = column :=
        of_decide_eq_true (List.mem_filter.mp hm).2
      exact before_iff.mpr (.inr ⟨hstyle.trans hstyle'.symm, Nat.le_of_eq (hcolumn.trans hcolumn'.symm)⟩)
    have hsub : (labels.filter same).Sublist ((labels.mergeSort (before file)).filter same) := by
      have hkept := (List.sublist_mergeSort before_trans before_total hsame List.filter_sublist).filter same
      simpa only [List.filter_filter, Bool.and_self] using hkept
    exact (hsub.eq_of_length ((List.mergeSort_perm labels _).filter same).length_eq.symm).symm

end Label

/-! ### Lines -/

theorem pairwise_eraseDups : ∀ {ns : List Nat}, ns.Pairwise (· ≤ ·) → ns.eraseDups.Pairwise (· < ·)
  | [], _ => List.Pairwise.nil
  | n :: ns, h => by
    rw [List.pairwise_cons] at h
    rw [List.eraseDups_cons, List.pairwise_cons]
    refine ⟨fun m hm => ?_, pairwise_eraseDups (h.2.filter _)⟩
    obtain ⟨hmem, hne⟩ := List.mem_filter.mp (List.mem_eraseDups.mp hm)
    exact Nat.lt_of_le_of_ne (h.1 m hmem) fun heq => by simp [heq] at hne
termination_by ns => ns.length
decreasing_by exact Nat.lt_succ_of_le (List.length_filter_le _ _)

namespace Snippet

variable (file : SourceFile) (source : String)

theorem pairwise_lineNumbers (annotations : List (Nat × Annotation)) :
    (lineNumbers annotations).Pairwise (· < ·) := by
  have htrans : ∀ k m n : Nat, decide (k ≤ m) = true → decide (m ≤ n) = true → decide (k ≤ n) = true :=
    fun _ _ _ hkm hmn => decide_eq_true (Nat.le_trans (of_decide_eq_true hkm) (of_decide_eq_true hmn))
  have htotal : ∀ m n : Nat, (decide (m ≤ n) || decide (n ≤ m)) = true := fun m n => by
    rw [Bool.or_eq_true, decide_eq_true_iff, decide_eq_true_iff]
    exact Nat.le_total m n
  exact pairwise_eraseDups ((List.pairwise_mergeSort htrans htotal _).imp of_decide_eq_true)

theorem mem_lineNumbers {labels : List Label} {n : Nat} :
    n ∈ lineNumbers (labels.filterMap (annotation? file source)) ↔ ∃ label ∈ labels, label.StartsOn file n := by
  rw [lineNumbers, List.mem_eraseDups, List.mem_mergeSort, mem_lines_iff]

/-- The labels that start on a line, in the order in which it shows them. -/
def shownLabels (labels : List Label) (n : Nat) : List Label :=
  (labels.filter (·.StartsOn file n)).mergeSort (Label.before file)

theorem mem_shownLabels {file : SourceFile} {labels : List Label} {n : Nat} {label : Label} :
    label ∈ shownLabels file labels n ↔ label ∈ labels ∧ label.StartsOn file n := by
  rw [shownLabels, List.mem_mergeSort, List.mem_filter, decide_eq_true_iff]

/-- The line with the number `n`, as it is shown with the labels that start on it. -/
def shownLine (labels : List Label) (n : Nat) : Shown where
  line := n
  text := lineText file source n
  marks := String.ofList (underline ((shownLabels file labels n).map (annotate file source)))
  messages := (shownLabels file labels n).filterMap fun label => label.message.map (label.column file, ·)

/-- The lines that a diagnostic shows. -/
def shown (d : Diagnostic) : List Shown :=
  (lineNumbers (d.labels.filterMap (annotation? file source))).map (shownLine file source d.labels)

theorem sorted_own (labels : List Label) (n : Nat) :
    sorted ((labels.filter (·.StartsOn file n)).map (annotate file source)) =
      (shownLabels file labels n).map (annotate file source) :=
  (List.map_mergeSort (r := Label.before file) (f := annotate file source) fun _ _ _ _ => rfl).symm

/-! ### Rows without colour -/

theorem render_margin (gutter : Nat) : (margin gutter).render false = Shown.margin gutter := by
  rw [margin, Painted.render_append, Painted.render_plain, Painted.render_hued, String.append_assoc]
  rfl

theorem render_sourceRow (gutter line : Nat) (text : String) :
    (sourceRow gutter line text).render false = padLeft (gutter + 1) (toString line) ++ " | " ++ text := by
  have hbar : " | " = " " ++ ("|" ++ " ") := rfl
  simp only [sourceRow, Painted.render_append, Painted.render_plain, Painted.render_hued, Painted.render_boldHued, hbar,
    String.append_assoc]

theorem render_annotationRows (gutter : Nat) (annotations : List Annotation) :
    (annotationRows gutter annotations).map (Painted.render false) =
      Shown.under gutter (String.ofList (underline (sorted annotations)))
        ((sorted annotations).filterMap fun a => a.message.map (a.column, ·)) := by
  obtain ⟨messages, hnamed⟩ :
      ∃ messages, (sorted annotations).filterMap (fun a => a.message.map fun m => (a, m)) = messages := ⟨_, rfl⟩
  have hmessages : (sorted annotations).filterMap (fun a => a.message.map (a.column, ·)) =
      messages.map fun (a, message) => (a.column, message) := by
    rw [← hnamed, List.map_filterMap]
    refine congrArg (List.filterMap · _) (funext fun a => ?_)
    rw [Option.map_map]
    rfl
  have hmarks : (margin gutter ++ plain " " ++ paintedUnderline (sorted annotations)).render false =
      Shown.margin gutter ++ " " ++ String.ofList (underline (sorted annotations)) := by
    rw [Painted.render_append, Painted.render_append, render_margin, Painted.render_plain, render_paintedUnderline]
  have hrow : ∀ m : Annotation × String,
      Painted.render false (margin gutter ++ plain (" " ++ spaces (m.1.column - 1)) ++
        [⟨m.1.style.paint, "|"⟩] ++ plain " " ++ [⟨m.1.style.paint, m.2⟩]) =
        Shown.margin gutter ++ " " ++ spaces (m.1.column - 1) ++ "| " ++ m.2 := by
    intro m
    have hbar : "| " = "|" ++ " " := rfl
    simp only [Painted.render_append, Painted.render_plain, Painted.render_run, render_margin, hbar,
      String.append_assoc]
  rw [hmessages, annotationRows]
  dsimp only
  rw [hnamed]
  rcases messages with _ | ⟨⟨a, message⟩, _ | ⟨second, more⟩⟩
  · exact congrArg (· :: []) hmarks
  · show [Painted.render false _] = _
    rw [Painted.render_append, Painted.render_append, hmarks, Painted.render_plain, Painted.render_run]
    rfl
  · refine congrArg₂ List.cons hmarks ?_
    show _ = List.map _ (List.map (fun m => (m.1.column, m.2)) ((a, message) :: second :: more)).reverse
    rw [← List.map_reverse, List.map_map, List.map_map]
    refine List.map_congr_left fun m _ => ?_
    simp only [Function.comp_apply, hrow]

theorem render_shownLine (gutter : Nat) (labels : List Label) (line : Nat) :
    (sourceRow gutter line (lineText file source line)).render false ::
        (annotationRows gutter ((labels.filter (·.StartsOn file line)).map (annotate file source))).map
          (Painted.render false) =
      (shownLine file source labels line).rows gutter := by
  rw [render_sourceRow, render_annotationRows, sorted_own, List.filterMap_map]
  rfl

theorem render_lineRows (gutter : Nat) (labels : List Label) (numbers : List Nat) :
    (lineRows file source gutter (labels.filterMap (annotation? file source)) numbers).map (Painted.render false) =
      Shown.allRows gutter (numbers.map (shownLine file source labels)) := by
  induction numbers with
  | nil => rfl
  | cons line more ih =>
    rw [lineRows_cons, List.map_append, List.map_append, List.map_cons, render_shownLine, ih]
    cases more with
    | nil => simp [gapRows, Shown.allRows]
    | cons next more =>
      have hgap : (gapRow gutter).render false = spaces gutter ++ " ..." := by
        rw [gapRow, Painted.render_append, Painted.render_plain, Painted.render_hued, String.append_assoc]
        rfl
      rw [gapRows, apply_ite (List.map _), List.map_singleton, hgap]
      rfl

/-- The text of a diagnostic without colour is its page. -/
theorem render_eq_page (d : Diagnostic) :
    d.render false file source = String.join ((d.page file (shown file source d)).map (· ++ "\n")) := by
  suffices hrows : (rows file source d).map (Painted.render false) = d.page file (shown file source d) by
    rw [← hrows, List.map_map]
    rfl
  rw [rows, Diagnostic.page, Shown.gutter, shown, List.getLast?_map]
  dsimp only
  cases hlast : (lineNumbers (d.labels.filterMap (annotation? file source))).getLast? with
  | none =>
    rw [List.getLast?_eq_none_iff.mp hlast]
    rfl
  | some last =>
    have hne : ((lineNumbers (d.labels.filterMap (annotation? file source))).map
        (shownLine file source d.labels)).isEmpty = false := by
      rw [List.isEmpty_map, List.isEmpty_eq_false_iff]
      exact List.ne_nil_of_mem (List.mem_of_getLast? hlast)
    rw [hne]
    simp only [List.map_append, List.map_cons, render_margin, render_lineRows, apply_ite (List.map _),
      List.map_nil, List.isEmpty_map]
    rfl

end Snippet

/-! ### What is shown -/

/-- What stands in a shown line and under it, told from the labels that start on the line. -/
structure Shown.Tells (row : Shown) (file : SourceFile) (source : String) (d : Diagnostic) : Prop where
  text : row.text = (file.lineText source row.line).getD ""
  marks : (∀ c ∈ row.marks.toList, c ∈ [' ', '^', '-']) ∧ ∃ c, row.marks.toList.getLast? = some c ∧ c ≠ ' '
  messages : ∃ labels, Label.Ordered file (d.labels.filter (·.StartsOn file row.line)) labels ∧
    row.messages = labels.filterMap fun label => label.message.map (label.column file, ·)

/-- The diagnostic shows these lines: its text is their page, their numbers increase, and they are the lines on which
labels start. -/
structure Diagnostic.Shows (file : SourceFile) (source : String) (d : Diagnostic) (shown : List Shown) : Prop where
  render : d.render false file source = String.join ((d.page file shown).map (· ++ "\n"))
  increase : (shown.map Shown.line).Pairwise (· < ·)
  mem_lines : ∀ n, n ∈ shown.map Shown.line ↔ ∃ label ∈ d.labels, label.StartsOn file n
  tells : ∀ row ∈ shown, row.Tells file source d

theorem Snippet.tells_shownLine {file : SourceFile} {source : String} {d : Diagnostic} {label : Label} {n : Nat}
    (hlabel : label ∈ d.labels) (hstarts : label.StartsOn file n) :
    (shownLine file source d.labels n).Tells file source d where
  text := rfl
  marks := by
    rw [shownLine, String.toList_ofList]
    have hmem : label ∈ shownLabels file d.labels n := mem_shownLabels.mpr ⟨hlabel, hstarts⟩
    exact ⟨fun c => mem_underline,
      getLast?_underline (List.mem_map_of_mem hmem) (SourceFile.one_le_column hstarts.1) (annotate_covers label)⟩
  messages := ⟨_, Label.ordered_mergeSort _, rfl⟩

theorem Snippet.shows_shown (file : SourceFile) (source : String) (d : Diagnostic) :
    d.Shows file source (shown file source d) := by
  have hlines : (shown file source d).map Shown.line = lineNumbers (d.labels.filterMap (annotation? file source)) := by
    rw [shown, List.map_map]
    exact List.map_id' _
  refine ⟨render_eq_page file source d, ?_, ?_, ?_⟩
  · rw [hlines]
    exact pairwise_lineNumbers _
  · intro n
    rw [hlines, mem_lineNumbers]
  · intro row hrow
    obtain ⟨n, hn, rfl⟩ := List.mem_map.mp hrow
    obtain ⟨label, hlabel, hstarts⟩ := (mem_lineNumbers file source).mp hn
    exact tells_shownLine hlabel hstarts

theorem length_toString_le {m n : Nat} (h : m ≤ n) : (toString m).length ≤ (toString n).length := by
  have hlength : n < 10 ^ n.repr.length := (Nat.length_repr_le_iff Nat.length_repr_pos).mp (Nat.le_refl _)
  exact (Nat.length_repr_le_iff Nat.length_repr_pos).mpr (Nat.lt_of_le_of_lt h hlength)

/-- No line number is wider than the last one. -/
theorem Diagnostic.Shows.length_le_gutter {file : SourceFile} {source : String} {d : Diagnostic} {shown : List Shown}
    (hshows : d.Shows file source shown) {row : Shown} (hrow : row ∈ shown) :
    (toString row.line).length ≤ Shown.gutter shown := by
  obtain ⟨init, last, rfl⟩ := (List.eq_nil_or_concat' shown).resolve_left (List.ne_nil_of_mem hrow)
  have hle : row.line ≤ last.line := by
    rcases List.mem_append.mp hrow with hinit | hlast
    · have hincrease := hshows.increase
      rw [List.map_append, List.pairwise_append] at hincrease
      exact Nat.le_of_lt (hincrease.2.2 _ (List.mem_map_of_mem hinit) _ List.mem_cons_self)
    · rw [List.mem_singleton.mp hlast]
  rw [Shown.gutter, List.getLast?_concat]
  exact Nat.le_trans (length_toString_le hle) (Nat.le_max_left _ _)

/-- The text of a line and the marks under it are equally far from the left. -/
theorem Diagnostic.Shows.length_left {file : SourceFile} {source : String} {d : Diagnostic} {shown : List Shown}
    (hshows : d.Shows file source shown) {row : Shown} (hrow : row ∈ shown) :
    (padLeft (Shown.gutter shown + 1) (toString row.line) ++ " | ").length =
      (Shown.margin (Shown.gutter shown) ++ " ").length := by
  have hspaces : ∀ n, (spaces n).length = n := fun n => by simp [spaces]
  have hle := hshows.length_le_gutter hrow
  rw [padLeft, Shown.margin, String.length_append, String.length_append, String.length_append, String.length_append,
    hspaces, hspaces]
  show _ + _ + 3 = _ + 2 + 1
  omega

/-- In a file of the source the shown lines are those of the source. -/
theorem Diagnostic.Shows.line_eq {name source : String} {base : Nat} {file : SourceFile} {d : Diagnostic}
    {shown : List Shown} (hshows : d.Shows file source shown) (hfile : SourceFile.ofText name base source = .ok file)
    {row : Shown} (hrow : row ∈ shown) : (source.toList.splitOn '\n')[row.line - 1]? = some row.text.toList := by
  obtain ⟨label, -, hvalid, hline⟩ := (hshows.mem_lines _).mp (List.mem_map_of_mem hrow)
  obtain ⟨hpos, hcontains⟩ := SourceFile.contains_of_position hvalid
  obtain ⟨-, -, line, hsplit, htext⟩ := SourceFile.position_of_isValid hfile hpos hcontains
  rw [hline] at hsplit htext
  rw [hsplit, (hshows.tells row hrow).text, htext, Option.getD_some, String.toList_ofList]

/-- A diagnostic drops no label. It shows the lines on which labels start, each once, with all messages of these
labels. In a file of the source a label starts on a line if it starts in the file, and the lines are those of the
source. -/
theorem Diagnostic.render_shown (file : SourceFile) (source : String) (d : Diagnostic) :
    ∃ shown, d.Shows file source shown ∧ ∀ name base, SourceFile.ofText name base source = .ok file →
      (∀ label ∈ d.labels, label.span.start.isValid = true ∧ file.contains label.span.start = true ↔
        ∃ row ∈ shown, label.StartsOn file row.line) ∧
      ∀ row ∈ shown, (source.toList.splitOn '\n')[row.line - 1]? = some row.text.toList := by
  have hshows := Snippet.shows_shown file source d
  refine ⟨_, hshows, fun name base hfile => ⟨fun label hlabel => ⟨?_, ?_⟩, fun row hrow => hshows.line_eq hfile hrow⟩⟩
  · rintro ⟨hpos, hcontains⟩
    obtain ⟨hvalid, -⟩ := SourceFile.position_of_isValid hfile hpos hcontains
    obtain ⟨row, hrow, hline⟩ := List.mem_map.mp ((hshows.mem_lines _).mpr ⟨label, hlabel, hvalid, rfl⟩)
    exact ⟨row, hrow, hvalid, hline.symm⟩
  · rintro ⟨row, -, hvalid, -⟩
    exact SourceFile.contains_of_position hvalid

/-- Two labels on the first line, one on the third that goes on behind the end, and one outside the file. -/
theorem Diagnostic.render_shown_gap :
    let source := "ab\n\nc"
    let file : SourceFile := ⟨"f", 1, 5, .ofText source⟩
    let d : Diagnostic := ⟨none, "m", [⟨⟨⟨2⟩, ⟨3⟩⟩, .secondary, some "s"⟩, ⟨⟨⟨1⟩, ⟨2⟩⟩, .primary, some "p"⟩,
      ⟨⟨⟨5⟩, ⟨9⟩⟩, .primary, none⟩, ⟨⟨⟨99⟩, ⟨100⟩⟩, .primary, some "x"⟩], [], none⟩
    SourceFile.ofText "f" 1 source = .ok file ∧
      d.render false file source = "error: m\n  --> f:1:1\n    |\n  1 | ab\n    | ^-\n    |  | s\n" ++
        "    | | p\n   ...\n  3 | c\n    | ^\n" ∧
      ∃ shown, d.Shows file source shown ∧
        (∀ label ∈ d.labels, label.span.start.isValid = true ∧ file.contains label.span.start = true ↔
          ∃ row ∈ shown, label.StartsOn file row.line) ∧
        ∀ row ∈ shown, (source.toList.splitOn '\n')[row.line - 1]? = some row.text.toList := by
  intro source file d
  have hfile : SourceFile.ofText "f" 1 source = .ok file := rfl
  have htext : d.render false file source = "error: m\n  --> f:1:1\n    |\n  1 | ab\n    | ^-\n    |  | s\n" ++
      "    | | p\n   ...\n  3 | c\n    | ^\n" := by cbv
  obtain ⟨shown, hshows, hsource⟩ := Diagnostic.render_shown file source d
  exact ⟨hfile, htext, shown, hshows, hsource "f" 1 hfile⟩

end RoseLang
