import Mathlib.Data.List.DropRight
import Mathlib.Data.List.GetD
import Mathlib.Data.List.SplitBy
import RoseLang.Diagnostic.Snippet
import RoseLang.Proofs.Text.Painted

/-!
# Labels on their lines

What a label becomes on the line on which it starts, and what marks stand under that line. The row of marks is told
column by column: under a column is a blank if no label covers it, else the mark of the last one that does. Dropping
the blanks at the end and cutting the row into runs of one colour changes no column.
-/

namespace RoseLang

open Text

/-- The label starts on the line of the file with the number `n`. -/
def Label.StartsOn (file : SourceFile) (n : Nat) (label : Label) : Prop :=
  (file.position label.span.start).isValid = true ∧ (file.position label.span.start).line = n

instance (file : SourceFile) (n : Nat) (label : Label) : Decidable (label.StartsOn file n) :=
  inferInstanceAs (Decidable (_ ∧ _))

/-- The column in which the label starts. -/
def Label.column (file : SourceFile) (label : Label) : Nat := (file.position label.span.start).column

theorem SourceFile.one_le_column {file : SourceFile} {p : Pos} (h : (file.position p).isValid = true) :
    1 ≤ (file.position p).column := by
  rw [position] at h ⊢
  split
  · exact Nat.le_add_left 1 _
  · next houtside =>
    rw [if_neg houtside] at h
    cases h

namespace Snippet

variable {file : SourceFile} {source : String}

/-! ### Annotations -/

/-- The column before which a label ends if it starts on the line with the number `n`. -/
def stopColumn (file : SourceFile) (source : String) (n : Nat) (p : Pos) : Nat :=
  let lineEnd := (lineText file source n).utf8ByteSize + 1
  match lineColumn? file p with
  | some (line, column) => if line = n then column else lineEnd
  | none => lineEnd

/-- The label on the line on which it starts. -/
def annotate (file : SourceFile) (source : String) (label : Label) : Annotation :=
  let stop := stopColumn file source (file.position label.span.start).line label.span.stop
  ⟨label.column file, max stop (label.column file + 1), label.style, label.message⟩

theorem annotation?_of_startsOn {n : Nat} {label : Label} (h : label.StartsOn file n) :
    annotation? file source label = some (n, annotate file source label) := by
  obtain ⟨hvalid, rfl⟩ := h
  rw [annotation?, lineColumn?, if_pos hvalid]
  rfl

theorem annotation?_eq_some {n : Nat} {a : Annotation} {label : Label}
    (h : annotation? file source label = some (n, a)) : label.StartsOn file n ∧ a = annotate file source label := by
  by_cases hvalid : (file.position label.span.start).isValid = true
  · rw [annotation?_of_startsOn ⟨hvalid, rfl⟩, Option.some.injEq, Prod.mk.injEq] at h
    exact ⟨⟨hvalid, h.1⟩, h.2.symm⟩
  · rw [annotation?, lineColumn?, if_neg hvalid] at h
    cases h

/-- The annotations of a line are its labels, in the order of the labels. -/
theorem own_annotations (file : SourceFile) (source : String) (labels : List Label) (n : Nat) :
    (labels.filterMap (annotation? file source)).filterMap (fun (k, a) => if k = n then some a else none) =
      (labels.filter (·.StartsOn file n)).map (annotate file source) := by
  rw [List.filterMap_filterMap, ← List.filterMap_eq_map, List.filterMap_filter]
  refine congrArg (List.filterMap · labels) (funext fun label => ?_)
  by_cases hlabel : label.StartsOn file n
  · rw [annotation?_of_startsOn hlabel, if_pos (decide_eq_true hlabel)]
    exact if_pos rfl
  · rw [if_neg (by simpa using hlabel)]
    cases hsome : annotation? file source label with
    | none => rfl
    | some found =>
      obtain ⟨k, a⟩ := found
      have hline : k ≠ n := fun hline => hlabel (hline ▸ (annotation?_eq_some hsome).1)
      exact if_neg hline

/-- A line has an annotation if a label starts on it. -/
theorem mem_lines_iff {labels : List Label} {n : Nat} :
    n ∈ (labels.filterMap (annotation? file source)).map Prod.fst ↔ ∃ label ∈ labels, label.StartsOn file n := by
  constructor
  · intro h
    obtain ⟨⟨k, a⟩, hfound, rfl⟩ := List.mem_map.mp h
    obtain ⟨label, hlabel, hsome⟩ := List.mem_filterMap.mp hfound
    exact ⟨label, hlabel, (annotation?_eq_some hsome).1⟩
  · rintro ⟨label, hlabel, hstarts⟩
    exact List.mem_map.mpr ⟨_, List.mem_filterMap.mpr ⟨label, hlabel, annotation?_of_startsOn hstarts⟩, rfl⟩

/-- The row that stands for the lines left out before the next one that is shown. -/
def gapRows (gutter line : Nat) : List Nat → List Painted
  | next :: _ => if line + 1 < next then [gapRow gutter] else []
  | [] => []

theorem lineRows_cons (file : SourceFile) (source : String) (gutter : Nat) (labels : List Label) (line : Nat)
    (more : List Nat) :
    lineRows file source gutter (labels.filterMap (annotation? file source)) (line :: more) =
      sourceRow gutter line (lineText file source line) ::
        annotationRows gutter ((labels.filter (·.StartsOn file line)).map (annotate file source)) ++
        gapRows gutter line more ++
        lineRows file source gutter (labels.filterMap (annotation? file source)) more := by
  rw [← own_annotations]
  cases more <;> rfl

/-! ### Marks -/

/-- The annotation covers the column. -/
def Annotation.Covers (column : Nat) (a : Annotation) : Prop := a.column ≤ column ∧ column < a.stop

instance (column : Nat) (a : Annotation) : Decidable (a.Covers column) := inferInstanceAs (Decidable (_ ∧ _))

theorem annotate_covers (label : Label) : (annotate file source label).Covers (label.column file) :=
  ⟨Nat.le_refl _, Nat.lt_of_lt_of_le (Nat.lt_succ_self _) (Nat.le_max_right _ _)⟩

theorem mark_ne_blank (style : LabelStyle) : style.mark ≠ ' ' := by
  cases style <;> decide

/-- What is found under a column is an annotation that covers it. -/
theorem covers_of_find? {annotations : List Annotation} {column : Nat} {a : Annotation}
    (ha : annotations.reverse.find? (fun a => a.column ≤ column && column < a.stop) = some a) :
    a ∈ annotations ∧ a.Covers column := by
  have htest := List.find?_some ha
  rw [Bool.and_eq_true, decide_eq_true_iff, decide_eq_true_iff] at htest
  exact ⟨List.mem_reverse.mp (List.mem_of_find?_eq_some ha), htest⟩

theorem markAt_eq_blank_iff {annotations : List Annotation} {column : Nat} :
    markAt annotations column = ' ' ↔ ∀ a ∈ annotations, ¬ a.Covers column := by
  rw [markAt]
  split
  · next a ha =>
    obtain ⟨hmem, hcovers⟩ := covers_of_find? ha
    exact iff_of_false (mark_ne_blank _) fun h => h a hmem hcovers
  · next hnone =>
    refine iff_of_true rfl fun a ha hcovers => ?_
    have hnot := List.find?_eq_none.mp hnone a (List.mem_reverse.mpr ha)
    rw [Bool.and_eq_true, decide_eq_true_iff, decide_eq_true_iff] at hnot
    exact hnot hcovers

theorem markAt_mem (annotations : List Annotation) (column : Nat) : markAt annotations column ∈ [' ', '^', '-'] := by
  rw [markAt]
  split
  · next a _ => cases a.style <;> decide
  · decide

/-- Dropping elements at the end changes nothing if they are what is read behind the end. -/
theorem getD_rdropWhile {α : Type} [DecidableEq α] (as : List α) (d : α) (i : Nat) :
    (as.rdropWhile (· = d)).getD i d = as.getD i d := by
  -- from the end of the list: each element that is dropped is what is read behind the end anyway
  induction as using List.reverseRecOn with
  | nil => rfl
  | append_singleton as a ih =>
    rw [List.rdropWhile_concat]
    split
    · next ha =>
      rw [ih]
      by_cases hi : i < as.length
      · rw [List.getD_append _ _ _ _ hi]
      · have hle : as.length ≤ i := Nat.le_of_not_lt hi
        rw [List.getD_append_right _ _ _ _ hle, List.getD_eq_default _ _ hle, of_decide_eq_true ha]
        cases i - as.length <;> rfl
    · rfl

/-- As many columns as the annotations reach. -/
def width (annotations : List Annotation) : Nat := (annotations.map Annotation.stop).foldl max 1 - 1

theorem underline_eq (annotations : List Annotation) : underline annotations =
    ((List.range' 1 (width annotations)).map (markAt annotations)).rdropWhile (· = ' ') := rfl

/-- Under a column stands its mark, and behind the last mark there is nothing but blanks. -/
theorem getD_underline (annotations : List Annotation) (i : Nat) :
    (underline annotations).getD i ' ' = markAt annotations (i + 1) := by
  rw [underline_eq, getD_rdropWhile]
  by_cases hi : i < width annotations
  · rw [List.getD_eq_getElem _ _ (by simpa using hi), List.getElem_map, List.getElem_range', Nat.one_mul, Nat.add_comm]
  · have hblank : ∀ a ∈ annotations, ¬ a.Covers (i + 1) := by
      intro a ha hcovers
      have hstop : a.stop ≤ ((annotations.map Annotation.stop).max?.getD 1) :=
        List.le_max?_getD_of_mem (List.mem_map_of_mem ha)
      have hwidth : width annotations ≤ i := Nat.le_of_not_lt hi
      rw [width, List.foldl_max] at hwidth
      have hlt : i + 1 < a.stop := hcovers.2
      omega
    rw [List.getD_eq_default _ _ (by simpa using hi), markAt_eq_blank_iff.mpr hblank]

theorem mem_underline {annotations : List Annotation} {c : Char} (h : c ∈ underline annotations) :
    c ∈ [' ', '^', '-'] := by
  rw [underline_eq] at h
  obtain ⟨column, -, rfl⟩ := List.mem_map.mp ((List.rdropWhile_prefix _ _).subset h)
  exact markAt_mem annotations column

/-- The row of marks ends with a mark, so there is one if something is covered. -/
theorem getLast?_underline {annotations : List Annotation} {a : Annotation} {column : Nat} (ha : a ∈ annotations)
    (hcolumn : 1 ≤ column) (hcovers : a.Covers column) :
    ∃ c, (underline annotations).getLast? = some c ∧ c ≠ ' ' := by
  have hne : underline annotations ≠ [] := by
    intro hnil
    have hmark := getD_underline annotations (column - 1)
    rw [hnil, Nat.sub_add_cancel hcolumn] at hmark
    exact markAt_eq_blank_iff.mp hmark.symm a ha hcovers
  refine ⟨_, List.getLast?_eq_some_getLast hne, ?_⟩
  exact fun hlast => List.rdropWhile_last_not (· = ' ') _ hne (decide_eq_true hlast)

/-- The runs of the row of marks together are the row. -/
theorem render_paintedUnderline (annotations : List Annotation) :
    (paintedUnderline annotations).render false = String.ofList (underline annotations) := by
  have hruns : ∀ runs : List (List Char), String.join (runs.map String.ofList) = String.ofList runs.flatten := by
    intro runs
    induction runs with
    | nil => rfl
    | cons run runs ih =>
      rw [List.map_cons, String.join_cons, ih, List.flatten_cons, String.ofList_append]
  rw [paintedUnderline, Painted.render, List.map_map]
  conv_rhs => rw [← List.flatten_splitBy (· == ·) (underline annotations), ← hruns]
  rfl

end Snippet

end RoseLang
