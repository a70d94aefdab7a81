import RoseLang.Diagnostic.OfError
import RoseLang.Diagnostic.Report
import RoseLang.Diagnostic.Snippet
import RoseLang.Proofs.Parse.Accounts.File
import RoseLang.Proofs.Parse.Layout.File
import RoseLang.Proofs.Parse.Sound.File
import RoseLang.Proofs.Text.Painted

/-!
# Places of errors

Every error of a parse is where a token or a fault of one starts, so it is in the file. Then neither a report nor a
rendering can lose its place: both tell the line and the column of the error itself, and the report has the text of
that line.
-/

namespace RoseLang

open Text

/-! ### Where errors are -/

/-- Where the tokens start, and their faults. -/
def places (ls : List Lexeme) : List Pos := ls.flatMap fun l => l.token.pos :: l.errors.map fun e => e.span.start

theorem keepsOrder_same {ps : List Pos} (h : ∀ p ∈ ps, 0 < p.index) : KeepsOrder fun p p' => p = p' ∧ p ∈ ps where
  pos := by
    rintro p _ ⟨rfl, hp⟩
    exact ⟨h p hp, h p hp⟩
  lt_iff := by
    rintro p _ q _ ⟨rfl, -⟩ ⟨rfl, -⟩
    rfl

/-- Tokens are like themselves, and all their positions are places of theirs. -/
theorem forall₂_lexemes_places (ls : List Lexeme) :
    List.Forall₂ (Lexeme.Alike fun p p' => p = p' ∧ p ∈ places ls) ls ls := by
  rw [List.forall₂_same]
  intro l hl
  have hplaces : ∀ p ∈ l.token.pos :: l.errors.map fun e => e.span.start, p ∈ places ls := fun p hp =>
    List.mem_flatMap.mpr ⟨l, hl, hp⟩
  refine ⟨⟨rfl, rfl, rfl, hplaces _ List.mem_cons_self⟩, List.forall₂_same.mpr fun e he => ⟨⟨rfl, ?_⟩, rfl⟩⟩
  exact hplaces _ (List.mem_cons_of_mem _ (List.mem_map_of_mem he))

/-- A parse has no positions but those of its tokens, since it is alike to itself by these alone. -/
theorem SourceFile.pos_mem_places {file : SourceFile} {source : String} {allErrors : Bool}
    (h : ∀ p ∈ places (Lexer.ofText source ⟨file.base⟩).lexemes, 0 < p.index) {e : ParseError}
    (he : e ∈ (file.parse source allErrors).errors) : e.pos ∈ places (Lexer.ofText source ⟨file.base⟩).lexemes := by
  have halike : (file.parse source allErrors).Alike _
      (fun e _ => e.pos ∈ places (Lexer.ofText source ⟨file.base⟩).lexemes) (file.parse source allErrors) :=
    parse_alike (keepsOrder_same h) (forall₂_lexemes_places _) (.inr fun p p' hp => by rw [hp.1])
      fun f f' hf => hf.pos.2
  exact List.forall₂_same.mp halike.errors e he

theorem Lexer.index_of_mem_places {source : String} {base : Pos}
    (hfits : base.index + utf8Length source.toList ≤ Pos.last.index) {p : Pos}
    (hp : p ∈ places (ofText source base).lexemes) :
    base.index ≤ p.index ∧ p.index ≤ base.index + utf8Length source.toList := by
  have hat := at_ofText hfits
  obtain ⟨l, hl, hp⟩ := List.mem_flatMap.mp hp
  rcases List.mem_cons.mp hp with rfl | hp
  · obtain ⟨before, cs, hcovers, -⟩ := hat.steps.spelled l.token (List.mem_map_of_mem hl)
    obtain ⟨after, hsource⟩ := hcovers.chars
    have hstart : l.token.pos.index = base.index + utf8Length before := hcovers.start
    rw [hstart, ← hsource, utf8Length_append, utf8Length_append]
    omega
  · obtain ⟨e, he, rfl⟩ := List.mem_map.mp hp
    have hmem : e ∈ (ofText source base).tokenize.2 := List.mem_append_right _ (List.mem_flatMap.mpr ⟨l, hl, he⟩)
    obtain hold | ⟨hstart, hlt, hstop⟩ := hat.steps.errors e hmem
    · cases hold
    · rw [hat.index_pos, utf8Length_nil, Nat.add_zero] at hstart
      exact ⟨hstart, Nat.le_trans (Nat.le_of_lt hlt) hstop⟩

section
variable {name source : String} {base : Nat} {file : SourceFile} {allErrors : Bool} {e : ParseError}

/-- Every error of a parse is in the file. -/
theorem SourceFile.contains_of_mem_errors (hfile : ofText name base source = .ok file) (hbase : 1 ≤ base)
    (he : e ∈ (file.parse source allErrors).errors) : file.contains e.pos = true := by
  obtain rfl := base_ofText hfile
  have hfits : (⟨file.base⟩ : Pos).index + utf8Length source.toList ≤ Pos.last.index := fits_of_ofText hfile
  have hwithin := fun p => Lexer.index_of_mem_places hfits (p := p)
  have hsize : file.size = utf8Length source.toList := by rw [(ofText_eq_ok_iff.mp hfile).2, utf8ByteSize_eq]
  rw [contains_iff, hsize]
  exact hwithin _ (pos_mem_places (fun p hp => Nat.lt_of_lt_of_le hbase (hwithin p hp).1) he)

theorem SourceFile.position_of_isValid (hfile : ofText name base source = .ok file) {p : Pos}
    (hvalid : p.isValid = true) (hp : file.contains p = true) :
    (file.position p).isValid = true ∧ (file.position p).offset ≤ file.size ∧
      ∃ line, (source.toList.splitOn '\n')[(file.position p).line - 1]? = some line ∧
        file.lineText source (file.position p).line = some (String.ofList line) := by
  obtain ⟨-, rfl⟩ := ofText_eq_ok_iff.mp hfile
  obtain ⟨n, line, hn, hline⟩ := LineMap.exists_line source (offset ⟨name, base, source.utf8ByteSize, _⟩ p)
  rw [position, hvalid, hp, Bool.and_self, if_pos rfl]
  dsimp only
  rw [hn, Nat.add_sub_cancel]
  refine ⟨rfl, Nat.min_le_right _ _, line, hline, ?_⟩
  rw [lineText, LineMap.lineText_ofText, hline]
  rfl

/-- A position in the file has a line of the text. -/
theorem SourceFile.position_of_contains (hfile : ofText name base source = .ok file) (hbase : 1 ≤ base) {p : Pos}
    (hp : file.contains p = true) :
    (file.position p).isValid = true ∧ (file.position p).offset ≤ file.size ∧
      ∃ line, (source.toList.splitOn '\n')[(file.position p).line - 1]? = some line ∧
        file.lineText source (file.position p).line = some (String.ofList line) := by
  obtain rfl := base_ofText hfile
  exact position_of_isValid hfile (isValid_of_contains hbase hp) hp

/-- Only positions in the file have a place. -/
theorem SourceFile.contains_of_position {p : Pos} (h : (file.position p).isValid = true) :
    p.isValid = true ∧ file.contains p = true := by
  rw [position] at h
  split at h
  · next hinside => exact Bool.and_eq_true_iff.mp hinside
  · cases h

end

/-! ### What diagnostics point at -/

/-- The first label of the diagnostic is the primary one, and starts there. -/
def Diagnostic.PointsAt (d : Diagnostic) (p : Pos) : Prop :=
  ∃ label more, d.labels = label :: more ∧ label.style = .primary ∧ label.span.start = p

theorem Parse.Founded.pointsAt {ls : List Lexeme} {pos : Pos} {fault : Fault} (h : Founded ls pos fault)
    (file : SourceFile) : (ParseError.ofFault file pos fault).toDiagnostic.PointsAt pos := by
  cases h with
  | redeclared hpos => exact ⟨_, _, rfl, rfl, hpos⟩
  | _ => exact ⟨_, _, rfl, rfl, rfl⟩

/-- The row that tells a place, as text. -/
def Snippet.header (colour : Bool) (file : SourceFile) (position : Position) : String :=
  let arrow := if colour then "\x1b[34m-->\x1b[0m" else "-->"
  let name := if file.name.isEmpty then "<source>" else file.name
  "  " ++ arrow ++ " " ++ name ++ ":" ++ toString position.line ++ ":" ++ toString position.column

theorem Snippet.getLast?_lineNumbers {annotations : List (Nat × Annotation)} (h : annotations ≠ []) :
    ∃ last, (lineNumbers annotations).getLast? = some last := by
  rw [lineNumbers]
  cases hsorted : (annotations.map Prod.fst).mergeSort (· ≤ ·) with
  | nil =>
    have hlength : ((annotations.map Prod.fst).mergeSort (· ≤ ·)).length = (annotations.map Prod.fst).length :=
      List.length_mergeSort _
    rw [hsorted, List.length_map] at hlength
    exact absurd (List.length_eq_zero_iff.mp hlength.symm) h
  | cons line lines =>
    rw [List.eraseDups_cons]
    exact ⟨_, List.getLast?_eq_some_getLast (List.cons_ne_nil _ _)⟩

namespace Diagnostic.PointsAt

variable {d : Diagnostic} {p : Pos} {file : SourceFile} {source : String}

theorem primarySpan? (h : d.PointsAt p) : ∃ span, d.primarySpan? = some span ∧ span.start = p := by
  obtain ⟨label, more, hlabels, hstyle, hstart⟩ := h
  refine ⟨label.span, ?_, hstart⟩
  rw [Diagnostic.primarySpan?, hlabels, List.find?_cons_of_pos (by simp [hstyle])]
  rfl

theorem location? (h : d.PointsAt p) (hvalid : (file.position p).isValid = true) :
    Report.location? file source d =
      some ⟨Report.ofPosition (file.position p), (file.lineText source (file.position p).line).getD ""⟩ := by
  obtain ⟨span, hspan, rfl⟩ := h.primarySpan?
  rw [Report.location?, hspan]
  exact if_pos hvalid

theorem placeRow (h : d.PointsAt p) (hvalid : (file.position p).isValid = true) :
    Snippet.placeRow file d = [plain "  " ++ hued .blue "-->" ++
      plain (" " ++ (if file.name.isEmpty then "<source>" else file.name) ++ ":" ++
        toString (file.position p).line ++ ":" ++ toString (file.position p).column)] := by
  obtain ⟨span, hspan, rfl⟩ := h.primarySpan?
  rw [Snippet.placeRow, hspan, Option.bind_some, Snippet.lineColumn?, if_pos hvalid]

/-- The line of the first label is among those that are shown, so the row that tells the place is shown too. -/
theorem rows (h : d.PointsAt p) (hvalid : (file.position p).isValid = true) :
    ∃ more, Snippet.rows file source d = Snippet.headline d :: Snippet.placeRow file d ++ more := by
  obtain ⟨label, labels, hlabels, -, rfl⟩ := h
  have hlast : ∃ last, (Snippet.lineNumbers (d.labels.filterMap (Snippet.annotation? file source))).getLast? =
      some last := by
    have hcolumn : Snippet.lineColumn? file label.span.start =
        some ((file.position label.span.start).line, (file.position label.span.start).column) := if_pos hvalid
    rw [hlabels, List.filterMap_cons, Snippet.annotation?, hcolumn]
    exact Snippet.getLast?_lineNumbers (List.cons_ne_nil _ _)
  obtain ⟨last, hlast⟩ := hlast
  rw [Snippet.rows, hlast]
  dsimp only
  rw [List.append_assoc, List.append_assoc]
  exact ⟨_, rfl⟩

/-- The text of a diagnostic tells its place in the row under the headline. -/
theorem render (h : d.PointsAt p) (hvalid : (file.position p).isValid = true) (colour : Bool) :
    ∃ rest, d.render colour file source = Painted.render colour (Snippet.headline d) ++ "\n" ++
      Snippet.header colour file (file.position p) ++ "\n" ++ rest := by
  obtain ⟨more, hrows⟩ :
      ∃ more, Snippet.rows file source d = Snippet.headline d :: Snippet.placeRow file d ++ more := h.rows hvalid
  have harrow : Painted.render colour (hued .blue "-->") = if colour then "\x1b[34m-->\x1b[0m" else "-->" := by
    cases colour <;> rfl
  refine ⟨String.join (more.map fun row => Painted.render colour row ++ "\n"), ?_⟩
  rw [Diagnostic.render, hrows, h.placeRow hvalid, Snippet.header]
  simp only [List.cons_append, List.nil_append, List.map_cons, String.join_cons, Painted.render_append,
    Painted.render_plain, harrow, String.append_assoc]

end Diagnostic.PointsAt

/-! ### Errors of a parse -/

/-- The error, its entry in a report and its text all tell the same place, which is one of the file. -/
structure ParseError.Placed (file : SourceFile) (source : String) (e : ParseError) : Prop where
  position : e.position = file.position e.pos
  isValid : e.position.isValid = true
  offset_le : e.position.offset ≤ file.size
  location : ∃ line, (source.toList.splitOn '\n')[e.position.line - 1]? = some line ∧
    (Report.entry file source e.toDiagnostic).location =
      some ⟨⟨e.position.line, e.position.column, e.position.offset⟩, String.ofList line⟩
  header : ∀ colour, ∃ rest, e.toDiagnostic.render colour file source =
    Painted.render colour (Snippet.headline e.toDiagnostic) ++ "\n" ++ Snippet.header colour file e.position ++ "\n" ++
      rest

/-- Every error of a parse is placed in its file, redeclarations included. -/
theorem SourceFile.parse_places {name source : String} {base : Nat} {file : SourceFile}
    (hfile : ofText name base source = .ok file) (hbase : 1 ≤ base) (allErrors : Bool) :
    ∀ e ∈ (file.parse source allErrors).errors, e.Placed file source := by
  intro e he
  obtain ⟨pos, fault, hfounded, rfl⟩ := Parse.founded_of_mem_errors he
  have hcontains : file.contains pos = true := contains_of_mem_errors hfile hbase he
  obtain ⟨hvalid, hoffset, line, hline, htext⟩ := position_of_contains hfile hbase hcontains
  have hpoints := hfounded.pointsAt file
  refine ⟨rfl, hvalid, hoffset, ⟨line, hline, ?_⟩, hpoints.render hvalid⟩
  show Report.location? file source _ = _
  rw [hpoints.location? hvalid, htext]
  rfl

/-- A redeclaration on the second line of a file without a name. -/
theorem SourceFile.parse_places_redeclaration :
    let source := "var a int\nvar a int"
    let file : SourceFile := ⟨"", 1, 19, .ofText source⟩
    ofText "" 1 source = .ok file ∧
      ∃ e ∈ (file.parse source false).errors, e.cause = some ⟨"a", ⟨15⟩, ⟨5⟩⟩ ∧
        Snippet.header false file e.position = "  --> <source>:2:5" ∧ e.Placed file source := by
  intro source file
  have hfile : ofText "" 1 source = .ok file := rfl
  obtain ⟨e, he, hcause, hheader⟩ : ∃ e ∈ (file.parse source false).errors, e.cause = some ⟨"a", ⟨15⟩, ⟨5⟩⟩ ∧
      Snippet.header false file e.position = "  --> <source>:2:5" := by decide +kernel
  exact ⟨hfile, e, he, hcause, hheader, SourceFile.parse_places hfile (Nat.le_refl 1) false e he⟩

end RoseLang
