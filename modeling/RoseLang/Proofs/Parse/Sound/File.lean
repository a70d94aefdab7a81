import RoseLang.Proofs.Parse.Sound.Stmt
import RoseLang.Proofs.Source.FileSet
import RoseLang.Proofs.Syntax.Tokens
import RoseLang.Proofs.Token.Placement

/-!
# Files read without a fault

A parse that ends without an error has read all tokens up to the end token, and none of them was faulty.
Its statements are what the grammar makes of these tokens.
-/

namespace RoseLang

open Grammar (IsFile)

namespace Parse

theorem declares_firstState (file : SourceFile) (source : String) (allErrors : Bool) :
    (firstState file source allErrors).names.Declares [] := by
  rw [names_firstState]
  exact Resolver.declares_openScope

end Parse

open Parse in
/-- A text that is parsed without an error is a file by the grammar, and its declarations are admissible. -/
theorem SourceFile.parse_sound {file : SourceFile} {source : String} {allErrors : Bool}
    (h : (file.parse source allErrors).isOk = true) :
    (∀ l ∈ (Lexer.ofText source ⟨file.base⟩).lexemes, l.errors = []) ∧
      IsFile ((Lexer.ofText source ⟨file.base⟩).lexemes.map Lexeme.token).dropLast
        (file.parse source allErrors).file.stmts ∧
      (∀ e ∈ (file.parse source allErrors).file.stmts.flatMap Stmt.exprs, e.levels ≤ maxDepth) ∧
      AllAdmissible [] ((file.parse source allErrors).file.stmts.flatMap Stmt.entries) := by
  let ls := (Lexer.ofText source ⟨file.base⟩).lexemes
  let first := firstState file source allErrors
  let last := lastState file source allErrors
  have hclean : last.findings = [] := (isOk_parse file source allErrors).mp h
  have hrun := stmts_lastState (findings_firstState_of_clean hclean) (.inr hclean)
  have hs : first.Terminated := terminated_firstState file source allErrors
  have hlength : 2 * first.tokens.length ≤ _ := length_tokens_firstState_le file source allErrors
  obtain ⟨ts, made, htokens, heof, -, -, hmade, hfile, hlevels, hadmissible⟩ :=
    stmts_makes hs (by omega) hclean hrun
  have hend : last.Terminated := EndsOnce.of_suffix hs ⟨ts, htokens.symm⟩ last.tokens_ne_nil
  have hlast := hend.tokens_eof heof
  have hread : Faultless (.start file allErrors ls) first := faultless_next _
  obtain ⟨-, ls', hrest, hls⟩ := stepRel_faultless.trans hread ((stmts_faultless _).of_ok hrun) hclean
  obtain rfl : ls' = ls := by
    have hnil : last.rest = [] := List.map_eq_nil_iff.mp (List.cons.inj hlast).2
    rw [hnil, List.append_nil] at hrest
    exact hrest.symm
  have hdrop : (ls.map Lexeme.token).dropLast = ts := by
    have htext : first.tokens = ls.map Lexeme.token := tokens_firstState file source allErrors
    rw [← htext, htokens, hlast, List.dropLast_concat]
  obtain rfl : last.stmts = made := by rw [hmade, stmts_firstState, List.nil_append]
  exact ⟨hls, hdrop ▸ hfile, hlevels, hadmissible [] (declares_firstState file source allErrors)⟩

/-! ### Nothing is lost -/

theorem EndsOnce.filter_eq {ts : List Token} (h : EndsOnce ts) :
    (ts.filter fun t => t.kind ≠ .semi ∧ t.kind ≠ .eof) = withoutSemis ts.dropLast := by
  obtain ⟨us, t, rfl, ht, hus⟩ := h
  rw [List.dropLast_concat, List.filter_append, withoutSemis]
  have hlast : [t].filter (fun t => t.kind ≠ .semi ∧ t.kind ≠ .eof) = [] := by simp [ht]
  rw [hlast, List.append_nil]
  apply List.filter_congr
  intro u hu
  simp [hus u hu]

theorem Lexer.tokenize_ofText (source : String) (base : Pos) :
    (ofText source base).tokenize =
      ((ofText source base).lexemes.map Lexeme.token, (ofText source base).lexemes.flatMap Lexeme.errors) :=
  rfl

theorem SourceFile.parse_marks {file : SourceFile} {source : String} {allErrors : Bool}
    (hbase : (⟨file.base⟩ : Pos).isValid = true) (h : (file.parse source allErrors).isOk = true) :
    Mark.FitAll ((file.parse source allErrors).file.stmts.flatMap Stmt.marks)
      ((Lexer.ofText source ⟨file.base⟩).tokenize.1.filter fun t => t.kind ≠ .semi ∧ t.kind ≠ .eof) := by
  obtain ⟨-, hfile, -, -⟩ := parse_sound h
  rw [Lexer.tokenize_ofText, (Lexer.endsOnce_lexemes _).filter_eq]
  apply hfile.fitAll
  intro t ht
  obtain ⟨x, hx, rfl⟩ := List.mem_map.mp (List.dropLast_subset _ ht)
  exact Lexer.isValid_pos_lexemes _ hbase x hx

theorem SourceFile.fits_of_ofText {name source : String} {base : Nat} {file : SourceFile}
    (h : SourceFile.ofText name base source = .ok file) :
    file.base + Text.utf8Length source.toList ≤ Pos.last.index := by
  rw [SourceFile.base_ofText h, ← Text.utf8ByteSize_eq]
  exact (ofText_eq_ok_iff.mp h).1

/-- A parse without an error loses, adds and reorders nothing: its statements, written out as tokens, are
the tokens of the text, terminators and the end token left out. -/
theorem parse_marks_fitAll {source : String} {allErrors : Bool} (h : (parse source allErrors).isOk = true) :
    Mark.FitAll ((parse source allErrors).file.stmts.flatMap Stmt.marks)
      ((Lexer.ofText source ⟨1⟩).tokenize.1.filter fun t => t.kind ≠ .semi ∧ t.kind ≠ .eof) := by
  rw [parse] at h ⊢
  cases hfile : SourceFile.ofText "" 1 source with
  | error e =>
    rw [hfile] at h
    cases h
  | ok file =>
    rw [hfile] at h
    have hbase := SourceFile.base_ofText hfile
    have hmarks := SourceFile.parse_marks (by rw [hbase]; decide) h
    rw [hbase] at hmarks
    exact hmarks

theorem parse_marks_fitAll_group :
    (parse "var (x, y int = (a + 1) * 2, -b; _ bool)\nx++; y, z = not x, 1" false).isOk = true ∧
      Mark.FitAll
        ((parse "var (x, y int = (a + 1) * 2, -b; _ bool)\nx++; y, z = not x, 1" false).file.stmts.flatMap
          Stmt.marks)
        ((Lexer.ofText "var (x, y int = (a + 1) * 2, -b; _ bool)\nx++; y, z = not x, 1" ⟨1⟩).tokenize.1.filter
          fun t => t.kind ≠ .semi ∧ t.kind ≠ .eof) := by
  have h : (parse "var (x, y int = (a + 1) * 2, -b; _ bool)\nx++; y, z = not x, 1" false).isOk = true := by
    decide +kernel
  exact ⟨h, parse_marks_fitAll h⟩

end RoseLang
