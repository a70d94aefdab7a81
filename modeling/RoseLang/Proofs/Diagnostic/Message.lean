import RoseLang.Diagnostic.OfError
import RoseLang.Proofs.Parse.Accounts.File
import RoseLang.Proofs.Token.Lines

/-!
# Messages in diagnostics

The headline of a diagnostic is the first line of its error's message, so it is the message if that has no line
feed. Of the parts that messages are put together from only one can have a line feed: a raw string that was found
where the grammar asks for something else.
-/

namespace RoseLang

/-! ### Lines -/

namespace Text

theorem linesAfter_of_ne {c : Char} (hc : c ≠ '\n') (read cs : List Char) :
    linesAfter read (c :: cs) = linesAfter (c :: read) cs := if_neg hc

/-- A line feed ends the line that has been read, of which a carriage return may be left out. -/
theorem linesAfter_newline (read cs : List Char) :
    ∃ line, line <:+ read ∧ linesAfter read ('\n' :: cs) = line.reverse :: linesAfter [] cs := by
  rw [linesAfter.eq_def]
  dsimp only
  rw [if_pos rfl]
  split
  · next line => exact ⟨line, List.suffix_cons _ line, rfl⟩
  · exact ⟨read, List.suffix_rfl, rfl⟩

/-- Characters that end no line only make the line longer that is being read. -/
theorem linesAfter_append {cs : List Char} (h : '\n' ∉ cs) (read rest : List Char) :
    linesAfter read (cs ++ rest) = linesAfter (cs.reverse ++ read) rest := by
  induction cs generalizing read with
  | nil => rfl
  | cons c cs ih =>
    rw [List.mem_cons, not_or] at h
    rw [List.cons_append, linesAfter_of_ne (Ne.symm h.1), ih h.2, List.reverse_cons, List.append_assoc]
    rfl

theorem newline_notMem_linesAfter {read cs line : List Char} (hread : '\n' ∉ read)
    (h : line ∈ linesAfter read cs) : '\n' ∉ line := by
  induction cs generalizing read with
  | nil =>
    rw [linesAfter] at h
    split at h
    · cases h
    · rwa [List.mem_singleton.mp h, List.mem_reverse]
  | cons c cs ih =>
    by_cases hc : c = '\n'
    · subst hc
      obtain ⟨first, hfirst, hlines⟩ := linesAfter_newline read cs
      rw [hlines] at h
      rcases List.mem_cons.mp h with rfl | h
      · rw [List.mem_reverse]
        exact fun hmem => hread (hfirst.subset hmem)
      · exact ih List.not_mem_nil h
    · rw [linesAfter_of_ne hc] at h
      exact ih (List.not_mem_cons_of_ne_of_not_mem (Ne.symm hc) hread) h

/-- A text is its first line, without others, if it has no line feed. -/
theorem lines_eq_iff (s : String) : (lines s).headD "" = s ∧ (lines s).tail = [] ↔ '\n' ∉ s.toList := by
  constructor
  · rintro ⟨hhead, -⟩
    rw [← hhead, lines]
    cases hlines : linesAfter [] s.toList with
    | nil => exact List.not_mem_nil
    | cons line more =>
      have hmem : line ∈ linesAfter [] s.toList := hlines ▸ List.mem_cons_self
      rw [List.map_cons, List.headD_cons, String.toList_ofList]
      exact newline_notMem_linesAfter List.not_mem_nil hmem
  · intro h
    have hlines := linesAfter_append h [] []
    rw [List.append_nil, List.append_nil, linesAfter] at hlines
    rw [lines, hlines]
    split
    · next hempty =>
      have hs : s.toList = [] := List.reverse_eq_nil_iff.mp (List.isEmpty_iff.mp hempty)
      exact ⟨(String.toList_eq_nil_iff.mp hs).symm, rfl⟩
    · rw [List.reverse_reverse, List.map_singleton, String.ofList_toList]
      exact ⟨rfl, rfl⟩

end Text

theorem ParseError.toDiagnostic_eq_message_iff {e : ParseError} (h : e.cause = none) :
    e.toDiagnostic.message = e.message ∧ e.toDiagnostic.notes = [] ↔ '\n' ∉ e.message.toList := by
  rw [← Text.lines_eq_iff, toDiagnostic, h]
  exact and_congr_right fun _ => List.map_eq_nil_iff

/-! ### Messages of a parse -/

namespace Parse

theorem Expectation.newline_notMem_text (what : Expectation) : '\n' ∉ what.text.toList := by
  cases what with
  | token kind => simp [text, kind.newline_notMem_spelling]
  | operand | type | statement => decide

variable {file : SourceFile} {l : Lexer}

/-- Only a raw string that was found brings a line feed into a message. -/
theorem Founded.rawString_of_newline {pos : Pos} {fault : Fault} (h : Founded l.lexemes pos fault)
    (herrors : l.errors = []) (hcause : fault.cause = none) (hnewline : '\n' ∈ (fault.message file).toList) :
    ∃ what text, fault = .expected what .rawString text ∧ '\n' ∈ text.toList ∧
      Written l.lexemes .rawString text := by
  have hlines : ∀ t ∈ l.lexemes.map Lexeme.token, t.kind ≠ .rawString → t.kind ≠ .semi → '\n' ∉ t.text.toList :=
    l.newline_notMem_text
  cases h with
  | @expected what found text hwritten =>
    have hfound : '\n' ∈ (foundText found text).toList := by
      simpa [Fault.message, what.newline_notMem_text] using hnewline
    rw [foundText] at hfound
    split at hfound
    · exact absurd hfound (by decide)
    · split at hfound
      · next hliteral =>
        obtain ⟨t, ht, rfl, rfl⟩ := hwritten
        by_cases hraw : t.kind = .rawString
        · rw [hraw]
          exact ⟨what, t.text, rfl, hfound, t, ht, hraw, rfl⟩
        · have hsemi : t.kind ≠ .semi := by
            intro hsemi
            rw [hsemi] at hliteral
            cases hliteral
          exact absurd hfound (hlines t ht hraw hsemi)
      · exact absurd hfound (by simp [found.newline_notMem_spelling])
  | notType hwritten =>
    obtain ⟨t, ht, hkind, rfl⟩ := hwritten
    have hname := hlines t ht (by simp [hkind]) (by simp [hkind])
    exact absurd hnewline (by simp [Fault.message, hname])
  | redeclared => cases hcause
  | lexical hlexical =>
    obtain ⟨e, he, heq⟩ := List.mem_map.mp hlexical
    cases heq
    have hmem : e ∈ l.tokenize.2 := List.mem_append_right _ he
    have hclean : ∀ e ∈ l.errors, '\n' ∉ e.message.toList := by simp [herrors]
    exact absurd hnewline (l.newline_notMem_message hclean e hmem)
  | severalExpressions | tooDeep | missingTypeOrValue | missingValue | missingConstant | surplusValue =>
    exact absurd hnewline (by rw [Fault.message]; decide)

end Parse

open Parse

/-- A diagnostic keeps the message of an error that is no redeclaration, without notes, unless the message has a
line feed: then it names a raw string over several lines that was found in place of something else. -/
theorem SourceFile.parse_headlines (file : SourceFile) (source : String) (allErrors : Bool) :
    ∀ e ∈ (file.parse source allErrors).errors, e.cause = none →
      (e.toDiagnostic.message = e.message ∧ e.toDiagnostic.notes = [] ↔ '\n' ∉ e.message.toList) ∧
        ('\n' ∈ e.message.toList → e.kind = .syntactic ∧
          ∃ what : Expectation, ∃ t ∈ (Lexer.ofText source ⟨file.base⟩).tokenize.1, t.kind = .rawString ∧
            '\n' ∈ t.text.toList ∧ e.message = "expected " ++ what.text ++ ", found " ++ t.text) := by
  intro e he hcause
  refine ⟨ParseError.toDiagnostic_eq_message_iff hcause, fun hnewline => ?_⟩
  obtain ⟨pos, fault, hfounded, rfl⟩ := founded_of_mem_errors he
  obtain ⟨what, text, rfl, htext, t, ht, hkind, rfl⟩ := hfounded.rawString_of_newline rfl hcause hnewline
  exact ⟨rfl, what, t, ht, hkind, htext, rfl⟩

/-- A name where a terminator should be, and on the lines after it a raw string. -/
theorem SourceFile.parse_headlines_name :
    let source := "x y\nx \x60a\nb\x60"
    let file : SourceFile := ⟨"", 1, 11, .ofText source⟩
    let errors := (file.parse source false).errors
    (∃ e ∈ errors, e.cause = none ∧ e.toDiagnostic.message = "expected ';', found y" ∧ e.toDiagnostic.notes = []) ∧
      ∃ e ∈ errors, e.cause = none ∧ '\n' ∈ e.message.toList ∧
        ∃ what : Expectation, ∃ t ∈ (Lexer.ofText source ⟨1⟩).tokenize.1, t.kind = .rawString ∧
          '\n' ∈ t.text.toList ∧ e.message = "expected " ++ what.text ++ ", found " ++ t.text := by
  intro source file errors
  let e := ParseError.ofFault file ⟨3⟩ (.expected (.token .semi) .ident "y")
  let e' := ParseError.ofFault file ⟨7⟩ (.expected (.token .semi) .rawString "\x60a\nb\x60")
  have he : e ∈ errors := mem_errors_result.mpr (by decide +kernel)
  have he' : e' ∈ errors := mem_errors_result.mpr (by decide +kernel)
  have hnewline : '\n' ∈ e'.message.toList := by decide +kernel
  obtain ⟨hplain, -⟩ := SourceFile.parse_headlines file source false e he rfl
  obtain ⟨-, hraw⟩ := SourceFile.parse_headlines file source false e' he' rfl
  obtain ⟨hmessage, hnotes⟩ := hplain.mpr (by decide +kernel)
  exact ⟨⟨e, he, rfl, hmessage, hnotes⟩, e', he', rfl, hnewline, (hraw hnewline).2⟩

/-- The message of such an error is cut at its first line feed, and what comes after that becomes a note. -/
theorem SourceFile.parse_headlines_rawString :
    let source := "x \x60a\nb\x60"
    let file : SourceFile := ⟨"", 1, 7, .ofText source⟩
    SourceFile.ofText "" 1 source = .ok file ∧
      ∃ e ∈ (file.parse source false).errors, e.cause = none ∧ e.message = "expected ';', found \x60a\nb\x60" ∧
        e.toDiagnostic.message = "expected ';', found \x60a" ∧ e.toDiagnostic.notes = ["b\x60"] := by
  intro source file
  exact ⟨rfl, by decide +kernel⟩

end RoseLang
