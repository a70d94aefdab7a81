import Mathlib
import RoseLang.Proofs.Diagnostic.Annotation
import RoseLang.Proofs.Source.LineMap

/-!
# Colour in diagnostics

The text of a diagnostic with colour is the one without it, but for the sequences that switch styles. All that has
escapes in it is what the painter adds: numbers, margins and marks have none, and the rest is taken from the
diagnostic, the name of the file and its text.
-/

namespace RoseLang

open Text

/-- No text of the diagnostic has an escape. -/
structure Diagnostic.Bare (d : Diagnostic) : Prop where
  code : ∀ code ∈ d.code, Text.Bare code
  message : Text.Bare d.message
  labels : ∀ label ∈ d.labels, ∀ message ∈ label.message, Text.Bare message
  notes : ∀ note ∈ d.notes, Text.Bare note
  help : ∀ help ∈ d.help, Text.Bare help

/-- The text of a diagnostic as someone paints it. -/
def Diagnostic.renderWith (paint : Run → String) (file : SourceFile) (source : String) (d : Diagnostic) : String :=
  String.join ((Snippet.rows file source d).map fun row => row.renderWith paint ++ "\n")

theorem SourceFile.bare_lineText {source line : String} {n : Nat} (file : SourceFile) (h : Bare source)
    (hline : file.lineText source n = some line) : Bare line := by
  cases n with
  | zero => cases hline
  | succ n =>
    rw [lineText, LineMap.lineText_succ] at hline
    obtain ⟨start, -, hcut⟩ := Option.bind_eq_some_iff.mp hline
    obtain ⟨cs, hcs, rfl⟩ := Option.map_eq_some_iff.mp hcut
    intro hescape
    rw [String.toList_ofList] at hescape
    exact h ((infix_of_sliceBytes hcs).subset hescape)

namespace Snippet

variable {file : SourceFile} {source : String} {d : Diagnostic}

theorem bare_lineText (h : Bare source) (n : Nat) : Bare (lineText file source n) := by
  rw [lineText]
  cases hline : file.lineText source n with
  | none => exact List.not_mem_nil
  | some line => exact file.bare_lineText h hline

theorem bare_margin (gutter : Nat) : (margin gutter).Bare := by
  simp +decide [margin]

theorem bare_paintedUnderline (annotations : List Annotation) : (paintedUnderline annotations).Bare := by
  intro run hrun
  obtain ⟨marks, hmarks, rfl⟩ := List.mem_map.mp hrun
  intro hescape
  rw [String.toList_ofList] at hescape
  have hmem : '\x1b' ∈ underline annotations := by
    rw [← List.flatten_splitBy (· == ·) (underline annotations)]
    exact List.mem_flatten.mpr ⟨marks, hmarks, hescape⟩
  exact absurd (mem_underline hmem) (by decide)

theorem bare_annotationRows (gutter : Nat) {annotations : List Annotation}
    (h : ∀ a ∈ annotations, ∀ message ∈ a.message, Bare message) :
    ∀ row ∈ annotationRows gutter annotations, row.Bare := by
  have hmarks : (margin gutter ++ plain " " ++ paintedUnderline (sorted annotations)).Bare := by
    simp +decide [bare_margin, bare_paintedUnderline]
  have hmessages : ∀ m ∈ (sorted annotations).filterMap (fun a => a.message.map fun m => (a, m)), Bare m.2 := by
    intro m hm
    obtain ⟨a, ha, hmessage⟩ := List.mem_filterMap.mp hm
    obtain ⟨message, hsome, rfl⟩ := Option.map_eq_some_iff.mp hmessage
    exact h a (List.mem_mergeSort.mp ha) message hsome
  rw [annotationRows]
  dsimp only
  split
  · exact List.forall_mem_singleton.mpr hmarks
  · next a message hone =>
    have hmessage : Bare message := hmessages (a, message) (by rw [hone]; exact List.mem_singleton_self _)
    refine List.forall_mem_singleton.mpr ?_
    simp +decide [bare_margin, bare_paintedUnderline, hmessage]
  · intro row hrow
    rcases List.mem_cons.mp hrow with rfl | hrow
    · exact hmarks
    · obtain ⟨⟨a, message⟩, hmem, rfl⟩ := List.mem_map.mp hrow
      have hmessage : Bare message := hmessages (a, message) (List.mem_reverse.mp hmem)
      simp +decide [bare_margin, hmessage]

theorem bare_lineRows (h : Bare source) (gutter : Nat) {labels : List Label}
    (hlabels : ∀ label ∈ labels, ∀ message ∈ label.message, Bare message) (numbers : List Nat) :
    ∀ row ∈ lineRows file source gutter (labels.filterMap (annotation? file source)) numbers, row.Bare := by
  induction numbers with
  | nil => exact List.forall_mem_nil _
  | cons line more ih =>
    have hown : ∀ a ∈ (labels.filter (·.StartsOn file line)).map (annotate file source),
        ∀ message ∈ a.message, Bare message := by
      intro a ha
      obtain ⟨label, hlabel, rfl⟩ := List.mem_map.mp ha
      exact hlabels label (List.mem_of_mem_filter hlabel)
    have hsource : (sourceRow gutter line (lineText file source line)).Bare := by
      simp +decide [sourceRow, bare_lineText h]
    have hgap : ∀ row ∈ gapRows gutter line more, row.Bare := by
      cases more with
      | nil => exact List.forall_mem_nil _
      | cons next more =>
        rw [gapRows]
        split <;> simp +decide [gapRow]
    rw [lineRows_cons, List.forall_mem_append, List.forall_mem_append, List.forall_mem_cons]
    exact ⟨⟨⟨hsource, bare_annotationRows gutter hown⟩, hgap⟩, ih⟩

theorem bare_headline (h : d.Bare) : (headline d).Bare := by
  rw [headline]
  cases hcode : d.code with
  | none => simp +decide [h.message]
  | some code => simp +decide [h.message, h.code code hcode]

theorem bare_remarks (h : d.Bare) : ∀ row ∈ remarks d, row.Bare := by
  have hremark : ∀ role text, Bare role → Bare text → (remark role text).Bare := by
    intro role text hrole htext
    simp +decide [remark, hrole, htext]
  rw [remarks, List.forall_mem_append]
  constructor
  · rintro row hrow
    obtain ⟨note, hnote, rfl⟩ := List.mem_map.mp hrow
    exact hremark _ _ (by decide) (h.notes note hnote)
  · rintro row hrow
    obtain ⟨help, hhelp, rfl⟩ := Option.map_eq_some_iff.mp (Option.mem_toList.mp hrow)
    exact hremark _ _ (by decide) (h.help help hhelp)

theorem bare_placeRow (h : Bare file.name) : ∀ row ∈ placeRow file d, row.Bare := by
  rw [placeRow]
  split
  · exact List.forall_mem_nil _
  · refine List.forall_mem_singleton.mpr ?_
    split <;> simp +decide [h]

theorem bare_rows (hname : Bare file.name) (hsource : Bare source) (hd : d.Bare) :
    ∀ row ∈ rows file source d, row.Bare := by
  rw [rows]
  dsimp only
  split
  · exact List.forall_mem_cons.mpr ⟨bare_headline hd, bare_remarks hd⟩
  · simp only [List.forall_mem_append, List.forall_mem_cons]
    refine ⟨⟨⟨⟨bare_headline hd, bare_placeRow hname⟩, bare_margin _, bare_lineRows hsource _ hd.labels _⟩, ?_⟩,
      bare_remarks hd⟩
    split
    · exact List.forall_mem_nil _
    · exact List.forall_mem_singleton.mpr (bare_margin _)

end Snippet

/-- Whoever paints a diagnostic, dropping the sequences that switch styles leaves its text without colour. -/
theorem Diagnostic.unpainted_renderWith {file : SourceFile} {source : String} {d : Diagnostic}
    (hname : Text.Bare file.name) (hsource : Text.Bare source) (hd : d.Bare) {paint : Run → String}
    (hpaint : Paints paint) : unpainted (d.renderWith paint file source) = d.render false file source :=
  hpaint.unpainted_rows (Snippet.bare_rows hname hsource hd)

/-- Colour never changes the text: what stays without the sequences that switch styles is the text without colour,
for the painter there is and for any other that can be relied on. -/
theorem Diagnostic.unpainted_render {file : SourceFile} {source : String} {d : Diagnostic}
    (hname : Text.Bare file.name) (hsource : Text.Bare source) (hd : d.Bare) :
    unpainted (d.render true file source) = d.render false file source ∧
      ∀ paint, Paints paint → unpainted (d.renderWith paint file source) = d.render false file source :=
  ⟨unpainted_renderWith hname hsource hd paints_render, fun _ => unpainted_renderWith hname hsource hd⟩

/-- A primary label and a secondary one behind it in the same row of marks. -/
theorem Diagnostic.unpainted_render_neighbours :
    let file : SourceFile := ⟨"f", 1, 2, .ofText "ab"⟩
    let d : Diagnostic := ⟨none, "m", [⟨⟨⟨1⟩, ⟨2⟩⟩, .primary, none⟩, ⟨⟨⟨2⟩, ⟨3⟩⟩, .secondary, none⟩], [], none⟩
    d.render false file "ab" = "error: m\n  --> f:1:1\n    |\n  1 | ab\n    | ^-\n" ∧
      unpainted (d.render true file "ab") = d.render false file "ab" ∧
      unpainted (d.renderWith (Run.render true) file "ab") = d.render false file "ab" := by
  intro file d
  have hd : d.Bare := ⟨by decide, by decide, by decide, by decide, by decide⟩
  have htext : d.render false file "ab" = "error: m\n  --> f:1:1\n    |\n  1 | ab\n    | ^-\n" := by cbv
  have hname : Text.Bare file.name := by decide
  have hsource : Text.Bare "ab" := by decide
  obtain ⟨hrender, hpainter⟩ := Diagnostic.unpainted_render hname hsource hd
  exact ⟨htext, hrender, hpainter (Run.render true) paints_render⟩

end RoseLang
