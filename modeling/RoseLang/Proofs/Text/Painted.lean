import Mathlib.Data.List.Basic
import RoseLang.Text.Paint

/-!
# Colour and text

The text of painted runs without the sequences that switch styles. Whoever paints the runs, if styled text stands
between a sequence that switches its style on and one that resets it, and has no escape of its own, then dropping
the sequences leaves the text as it is without colour.
-/

namespace RoseLang.Text

/-! ### Dropping sequences -/

/-- The characters without every sequence that reaches from an escape and a bracket to the next letter m. If such a
sequence is being read, what has been read of it comes first, last character first; it stays if no m follows. -/
def dropSequences : Option (List Char) → List Char → List Char
  | none, '\x1b' :: '[' :: cs => dropSequences (some []) cs
  | none, c :: cs => c :: dropSequences none cs
  | none, [] => []
  | some _, 'm' :: cs => dropSequences none cs
  | some read, c :: cs => dropSequences (some (c :: read)) cs
  | some read, [] => '\x1b' :: '[' :: read.reverse

/-- The text without the sequences that switch styles. -/
def unpainted (s : String) : String := String.ofList (dropSequences none s.toList)

/-- The text has no escape. -/
def Bare (s : String) : Prop := '\x1b' ∉ s.toList

instance (s : String) : Decidable (Bare s) := inferInstanceAs (Decidable (_ ∉ _))

theorem dropSequences_append {cs : List Char} (h : '\x1b' ∉ cs) (rest : List Char) :
    dropSequences none (cs ++ rest) = cs ++ dropSequences none rest := by
  induction cs with
  | nil => rfl
  | cons c cs ih =>
    rw [List.mem_cons, not_or] at h
    have hstep : dropSequences none (c :: (cs ++ rest)) = c :: dropSequences none (cs ++ rest) :=
      dropSequences.eq_2 c (cs ++ rest) fun _ hc _ => h.1 hc.symm
    rw [List.cons_append, hstep, ih h.2, List.cons_append]

theorem dropSequences_codes {codes : List Char} (h : 'm' ∉ codes) (read rest : List Char) :
    dropSequences (some read) (codes ++ 'm' :: rest) = dropSequences none rest := by
  induction codes generalizing read with
  | nil => rfl
  | cons c codes ih =>
    rw [List.mem_cons, not_or] at h
    have hstep : dropSequences (some read) (c :: (codes ++ 'm' :: rest)) =
        dropSequences (some (c :: read)) (codes ++ 'm' :: rest) :=
      dropSequences.eq_5 read c (codes ++ 'm' :: rest) fun hc => h.1 hc.symm
    rw [List.cons_append, hstep, ih h.2]

/-! ### Text without escapes -/

@[simp] theorem bare_append {s t : String} : Bare (s ++ t) ↔ Bare s ∧ Bare t := by
  rw [Bare, String.toList_append, List.mem_append, not_or]
  rfl

@[simp] theorem bare_spaces (n : Nat) : Bare (spaces n) := by
  rw [Bare, spaces, String.toList_ofList, List.mem_replicate]
  exact fun h => absurd h.2 (by decide)

@[simp] theorem bare_padLeft {width : Nat} {s : String} : Bare (padLeft width s) ↔ Bare s := by
  rw [padLeft, bare_append, and_iff_right (bare_spaces _)]

@[simp] theorem bare_repr (n : Nat) : Bare n.repr := by
  intro h
  rw [Nat.repr_eq_ofList_toDigits, String.toList_ofList] at h
  exact absurd (Nat.isDigit_of_mem_toDigits (by decide) (by decide) h) (by decide)

/-- No run has an escape of its own. -/
def Painted.Bare (runs : Painted) : Prop := ∀ run ∈ runs, Text.Bare run.text

namespace Painted

@[simp] theorem bare_append {x y : Painted} : Bare (x ++ y) ↔ Bare x ∧ Bare y :=
  List.forall_mem_append

@[simp] theorem bare_nil : Bare [] := List.forall_mem_nil _

@[simp] theorem bare_cons {run : Run} {runs : Painted} : Bare (run :: runs) ↔ Text.Bare run.text ∧ Bare runs :=
  List.forall_mem_cons

@[simp] theorem bare_plain {s : String} : Bare (plain s) ↔ Text.Bare s := List.forall_mem_singleton

@[simp] theorem bare_bold {s : String} : Bare (bold s) ↔ Text.Bare s := List.forall_mem_singleton

@[simp] theorem bare_hued {h : Hue} {s : String} : Bare (hued h s) ↔ Text.Bare s := List.forall_mem_singleton

@[simp] theorem bare_boldHued {h : Hue} {s : String} : Bare (boldHued h s) ↔ Text.Bare s := List.forall_mem_singleton

end Painted

/-! ### Painting -/

/-- What is relied on of whoever paints runs: plain text is left as it is, and other text that has no escape of its
own stands between some codes and a reset. -/
structure Paints (paint : Run → String) : Prop where
  plain : ∀ run, run.style = .plain → paint run = run.text
  styled : ∀ run, run.style ≠ .plain → Bare run.text → ∃ codes : String, 'm' ∉ codes.toList ∧
    paint run = "\x1b[" ++ codes ++ "m" ++ run.text ++ "\x1b[0m"

theorem restyle_of_bare (on : List Char) {cs : List Char} (h : '\x1b' ∉ cs) : restyle on cs = cs := by
  induction cs with
  | nil => rfl
  | cons c cs ih =>
    rw [List.mem_cons, not_or] at h
    have hstep : restyle on (c :: cs) = c :: restyle on cs := restyle.eq_2 on c cs fun _ hc _ => h.1 hc.symm
    rw [hstep, ih h.2]

theorem m_notMem_codes? {style : Style} {codes : String} (h : style.codes? = some codes) : 'm' ∉ codes.toList := by
  cases style with
  | plain => cases h
  | bold | dimmed =>
    cases h
    decide
  | hue hue | boldHue hue => cases hue <;> cases h <;> decide

theorem paints_render : Paints (Run.render true) where
  plain := by
    rintro ⟨style, text⟩ rfl
    rfl
  styled := by
    intro run hstyle hbare
    obtain ⟨codes, hcodes⟩ : ∃ codes, run.style.codes? = some codes := by
      cases hs : run.style with
      | plain => exact absurd hs hstyle
      | _ => exact ⟨_, rfl⟩
    refine ⟨codes, m_notMem_codes? hcodes, ?_⟩
    simp only [Run.render, hcodes, restyle_of_bare _ hbare, String.ofList_toList]

namespace Painted

/-- The text of all runs as someone paints them. -/
def renderWith (paint : Run → String) (runs : Painted) : String := String.join (runs.map paint)

theorem render_plain (colour : Bool) (text : String) : render colour (plain text) = text := by
  cases colour <;> simp [render, plain, Run.render, Style.codes?]

theorem render_append (colour : Bool) (x y : Painted) :
    render colour (x ++ y) = render colour x ++ render colour y := by
  rw [render, List.map_append, String.join_append]
  rfl

/-- Without colour a run is its text. -/
theorem render_run (style : Style) (text : String) : render false [⟨style, text⟩] = text := by
  simp [render, Run.render]

theorem render_hued (hue : Hue) (text : String) : render false (hued hue text) = text := render_run _ text

theorem render_boldHued (hue : Hue) (text : String) : render false (boldHued hue text) = text := render_run _ text

end Painted

theorem Paints.dropSequences_append {paint : Run → String} (hpaint : Paints paint) {run : Run}
    (h : Bare run.text) (rest : List Char) :
    dropSequences none ((paint run).toList ++ rest) = run.text.toList ++ dropSequences none rest := by
  by_cases hplain : run.style = .plain
  · rw [hpaint.plain run hplain, Text.dropSequences_append h]
  · obtain ⟨codes, hcodes, htext⟩ := hpaint.styled run hplain h
    -- no code is an m, so the first sequence ends with the codes, and the second one is the reset
    have hread : (paint run).toList ++ rest = '\x1b' :: '[' :: (codes.toList ++ 'm' ::
        (run.text.toList ++ '\x1b' :: '[' :: ("0".toList ++ 'm' :: rest))) := by
      rw [htext]
      simp
    rw [hread, dropSequences, dropSequences_codes hcodes, Text.dropSequences_append h, dropSequences,
      dropSequences_codes (by decide)]

theorem Paints.dropSequences_renderWith {paint : Run → String} (hpaint : Paints paint) {runs : Painted}
    (h : runs.Bare) (rest : List Char) :
    dropSequences none ((runs.renderWith paint).toList ++ rest) =
      (runs.render false).toList ++ dropSequences none rest := by
  induction runs with
  | nil => rfl
  | cons run runs ih =>
    rw [Painted.bare_cons] at h
    rw [Painted.renderWith, Painted.render, List.map_cons, List.map_cons, String.join_cons, String.join_cons,
      String.toList_append, String.toList_append, List.append_assoc, hpaint.dropSequences_append h.1,
      List.append_assoc]
    exact congrArg _ (ih h.2)

/-- However rows are painted, dropping the sequences leaves their text. -/
theorem Paints.unpainted_rows {paint : Run → String} (hpaint : Paints paint) {rows : List Painted}
    (h : ∀ row ∈ rows, row.Bare) :
    unpainted (String.join (rows.map fun row => row.renderWith paint ++ "\n")) =
      String.join (rows.map fun row => row.render false ++ "\n") := by
  suffices hchars : dropSequences none (String.join (rows.map fun row => row.renderWith paint ++ "\n")).toList =
      (String.join (rows.map fun row => row.render false ++ "\n")).toList by
    rw [unpainted, hchars, String.ofList_toList]
  induction rows with
  | nil => rfl
  | cons row rows ih =>
    rw [List.forall_mem_cons] at h
    have hfeed : ∀ rest, dropSequences none ("\n".toList ++ rest) = "\n".toList ++ dropSequences none rest :=
      Text.dropSequences_append (by decide)
    simp only [List.map_cons, String.join_cons, String.toList_append, List.append_assoc,
      hpaint.dropSequences_renderWith h.1, hfeed, ih h.2]

end RoseLang.Text
