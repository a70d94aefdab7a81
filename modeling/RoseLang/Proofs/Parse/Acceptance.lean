import RoseLang.Proofs.Parse.Complete.Stmt
import RoseLang.Proofs.Parse.Sound.File

/-!
# Which texts are accepted

A text is parsed without an error exactly if its tokens are faultless and a file by the grammar, its
expressions are not nested too deeply and its declarations are admissible. The tree that the parser makes
of it is then the tree of the grammar.
-/

namespace RoseLang

open Grammar (IsFile)

open Parse in
/-- A text whose tokens are faultless and a file by the grammar is parsed without an error if its
expressions are not nested too deeply and its declarations are admissible. -/
theorem SourceFile.parse_complete {file : SourceFile} {source : String} {made : List Stmt} (allErrors : Bool)
    (hlexemes : ∀ l ∈ (Lexer.ofText source ⟨file.base⟩).lexemes, l.errors = [])
    (hfile : IsFile ((Lexer.ofText source ⟨file.base⟩).lexemes.map Lexeme.token).dropLast made)
    (hlevels : ∀ e ∈ made.flatMap Stmt.exprs, e.levels ≤ maxDepth)
    (hadmissible : AllAdmissible [] (made.flatMap Stmt.entries)) :
    (file.parse source allErrors).isOk = true ∧
      (file.parse source allErrors).file.stmts.map Stmt.erase = made.map Stmt.erase := by
  let first := firstState file source allErrors
  have hs : first.Terminated := terminated_firstState file source allErrors
  have hquiet : first.Quiet := State.Quiet.next ⟨rfl, hlexemes⟩
  obtain ⟨ts, last, htokens, hlast, -⟩ := id hs
  have htext : first.tokens = (Lexer.ofText source ⟨file.base⟩).lexemes.map Lexeme.token :=
    tokens_firstState file source allErrors
  rw [← htext, htokens, List.dropLast_concat] at hfile
  have hfuel : ts.length ≤ maxStmts (Lexer.ofText source ⟨file.base⟩).lexemes.length := by
    have hlength : 2 * first.tokens.length ≤ _ := length_tokens_firstState_le file source allErrors
    rw [htokens, List.length_append] at hlength
    omega
  obtain ⟨made', s', hrun, hmade, herase, hclean⟩ := stmts_ok hfile hlevels ⟨hs, hquiet, htokens⟩
    ⟨last, [], rfl, List.mem_singleton.mpr hlast⟩ (depth_firstState file source allErrors)
    (declares_firstState file source allErrors) hadmissible hfuel
  have hend : lastState file source allErrors = s' := (lastState_of_clean hquiet.1).trans (endState_of_ok hrun)
  refine ⟨(isOk_parse file source allErrors).mpr (hend ▸ hclean), ?_⟩
  show (lastState file source allErrors).stmts.map Stmt.erase = _
  rw [hend, hmade, stmts_firstState, List.nil_append, herase]

theorem SourceFile.ofText_one (name : String) {source : String} (h : source.utf8ByteSize < Pos.last.index) :
    ∃ file, SourceFile.ofText name 1 source = .ok file := by
  rw [SourceFile.ofText]
  rw [if_neg (by omega), if_neg (by omega)]
  exact ⟨_, rfl⟩

theorem SourceFile.size_lt_of_ofText {name source : String} {file : SourceFile}
    (h : SourceFile.ofText name 1 source = .ok file) : source.utf8ByteSize < Pos.last.index := by
  rw [SourceFile.ofText] at h
  split at h
  · cases h
  · split at h
    · cases h
    · omega

/-- The parser accepts exactly its grammar: a text that has positions, of tokens without faults that are
the statements of a file, where no expression or type needs more levels than there are, each spec has the
type and the values that its keyword asks for, no name is declared twice and the type of no spec is a name
declared by a spec before it. -/
theorem isOk_parse_iff (source : String) (allErrors : Bool) :
    (parse source allErrors).isOk = true ↔
      source.utf8ByteSize < Pos.last.index ∧ (Lexer.ofText source ⟨1⟩).tokenize.2 = [] ∧
        ∃ stmts, IsFile (Lexer.ofText source ⟨1⟩).tokenize.1.dropLast stmts ∧
          (∀ e ∈ stmts.flatMap Stmt.exprs, e.levels ≤ Parse.maxDepth) ∧
          (∀ x ∈ stmts.flatMap Stmt.entries, x.Shaped) ∧
          (declaredIn (stmts.flatMap Stmt.entries)).Nodup ∧
          (stmts.flatMap Stmt.entries).Pairwise fun earlier later =>
            ¬ later.spec.TypeIn earlier.spec.declared := by
  have hfaultless : (Lexer.ofText source ⟨1⟩).tokenize.2 = [] ↔
      ∀ l ∈ (Lexer.ofText source ⟨1⟩).lexemes, l.errors = [] := by
    rw [Lexer.tokenize_ofText, List.flatMap_eq_nil_iff]
  rw [hfaultless, Lexer.tokenize_ofText]
  constructor
  · intro h
    rw [parse] at h
    cases hfile : SourceFile.ofText "" 1 source with
    | error e =>
      rw [hfile] at h
      cases h
    | ok file =>
      rw [hfile] at h
      have hbase := SourceFile.base_ofText hfile
      obtain ⟨hlexemes, hisFile, hlevels, hadmissible⟩ := SourceFile.parse_sound h
      rw [hbase] at hlexemes hisFile
      exact ⟨SourceFile.size_lt_of_ofText hfile, hlexemes, _, hisFile, hlevels,
        allAdmissible_nil_iff.mp hadmissible⟩
  · rintro ⟨hsize, hlexemes, stmts, hisFile, hlevels, hadmissible⟩
    obtain ⟨file, hfile⟩ := SourceFile.ofText_one "" hsize
    rw [parse, hfile]
    have hbase := SourceFile.base_ofText hfile
    rw [← hbase] at hlexemes hisFile
    exact (SourceFile.parse_complete allErrors hlexemes hisFile hlevels (allAdmissible_nil_iff.mpr hadmissible)).1

end RoseLang
