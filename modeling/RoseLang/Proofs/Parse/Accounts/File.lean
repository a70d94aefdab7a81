import RoseLang.Proofs.Parse.Accounts.State
import RoseLang.Proofs.Parse.Names.File
import RoseLang.Proofs.Parse.Progress

/-!
# Accounts of a file

The accounts are in order where a parse starts, and so they are where it ends. A parse that wants every fault comes
to the end token, unless the first token is faulty, so it has then kept the faults of all tokens.
-/

namespace RoseLang

namespace Parse

variable {file : SourceFile} {source : String}

theorem accounted_next_start (file : SourceFile) (l : Lexer) :
    Accounted l.lexemes [] (State.start file true l.lexemes).next := by
  obtain ⟨rest, hlexemes⟩ := l.lexemes_eq_cons
  have htokens := tokens_next_start file true l
  rw [hlexemes] at htokens ⊢
  rw [State.next_of_allErrors (s := .start file true _) rfl rfl] at htokens ⊢
  refine ⟨rfl, htokens ▸ List.suffix_rfl, ?_, fun f hf => ?_, List.nil_sublist _⟩
  · show lexical ([] ++ lexicalOf [l.nextLexeme.1]) ++ lexicalOf rest = _
    rw [List.nil_append, lexical_lexicalOf, ← lexicalOf_cons]
  · have hlexical : f ∈ lexicalOf [l.nextLexeme.1] := hf
    have hmem : f ∈ lexicalOf (l.nextLexeme.1 :: rest) := by
      rw [lexicalOf_cons]
      exact List.mem_append_left _ hlexical
    obtain ⟨e, -, rfl⟩ := List.mem_map.mp hlexical
    exact .lexical hmem

/-- A parse that wants every fault comes to the end token, unless the first token is faulty. -/
theorem rest_lastState (h : (firstState file source true).findings = []) : (lastState file source true).rest = [] := by
  obtain ⟨t, hrounds, ⟨heof, hend⟩ | ⟨-, hstop⟩⟩ := lastState_endsAfter h
  · rw [hend]
    have htokens := (hrounds.terminated (terminated_firstState file source true)).tokens_eof heof
    exact List.map_eq_nil_iff.mp (List.cons.inj htokens).2
  · obtain ⟨st, u, hrun, -⟩ := Built.stmt.runs (hrounds.allErrors (allErrors_firstState file source true))
    rw [hstop] at hrun
    cases hrun

/-- How a parse ends that wants every fault. -/
theorem accounted_lastState (file : SourceFile) (source : String) :
    let ls := (Lexer.ofText source ⟨file.base⟩).lexemes
    let s := lastState file source true
    Accounted ls (s.stmts.flatMap Stmt.placeholders) s ∧
      ((∀ l ∈ ls.head?, l.errors = []) → lexical s.findings = lexicalOf ls) := by
  intro ls s
  have hstart : Accounted ls [] (State.start file true ls).next := accounted_next_start file _
  by_cases hfirst : (firstState file source true).findings = []
  · obtain ⟨n, hrounds⟩ := Rounds.of_stmts (stmts_lastState hfirst (.inl rfl))
    have hopen : Accounted ls ((firstState file source true).stmts.flatMap (Stmt.walk .placeholders))
        (firstState file source true) := by
      rw [stmts_firstState]
      exact hstart.of_same rfl rfl rfl rfl
    have hends := hrounds.keeps (P := fun s => Accounted ls (s.stmts.flatMap (Stmt.walk .placeholders)) s)
      (fun s st t hs _ hst => (accounted_ledger ls).made hs hst) hopen
    rw [Stmt.walk_placeholders] at hends
    have hlexical := hends.lexical
    rw [rest_lastState hfirst, show lexicalOf [] = [] from rfl, List.append_nil] at hlexical
    exact ⟨hends, fun _ => hlexical⟩
  · have hs : s = (State.start file true ls).next := lastState_of_faulty hfirst
    have hnone : s.stmts = [] := hs ▸ (Extends.next _).stmts
    refine ⟨?_, fun hclean => absurd (findings_firstState.mpr hclean) hfirst⟩
    rw [hnone, hs]
    exact hstart

/-- A parse that does not want every fault reports no other ones. -/
theorem errors_parse_subset (file : SourceFile) (source : String) (allErrors : Bool) :
    (file.parse source allErrors).errors ⊆ (file.parse source true).errors := by
  cases allErrors with
  | true => exact List.Subset.refl _
  | false =>
    obtain ⟨fs, hfs, hgrows, -⟩ := lastState_keepingAll file source
    exact (errors_result_sublist (s := lastState file source false) hgrows.file
      (hfs.sublist.trans hgrows.findings.sublist)).subset

/-- What an error of a parse says of a token is so. -/
theorem founded_of_mem_errors {allErrors : Bool} {e : ParseError}
    (he : e ∈ (file.parse source allErrors).errors) :
    ∃ pos fault, Founded (Lexer.ofText source ⟨file.base⟩).lexemes pos fault ∧
      e = ParseError.ofFault file pos fault := by
  let s := lastState file source true
  have hs : Accounted (Lexer.ofText source ⟨file.base⟩).lexemes _ s := (accounted_lastState file source).1
  have hfile : s.file = file := (settings_lastState file source true).1
  have hmem : e ∈ s.result.errors := errors_parse_subset file source allErrors he
  obtain ⟨f, hf, rfl⟩ := mem_errors_result.mp hmem
  rw [hfile]
  exact ⟨f.pos, f.fault, hs.founded f hf, rfl⟩

/-- A parse without errors is the same whether every fault is wanted or not. -/
theorem parse_of_isOk {allErrors : Bool} (h : (file.parse source allErrors).isOk = true) :
    file.parse source true = file.parse source allErrors := by
  cases allErrors with
  | true => rfl
  | false =>
    let s := lastState file source false
    let t := lastState file source true
    obtain ⟨fs, hfs, -, hsame⟩ : ∃ fs, s.Covers fs ∧ _ ∧ (s.isFull = false → t = s.keepingAll fs) :=
      lastState_keepingAll file source
    have hnone : s.findings = [] := (isOk_parse file source false).mp h
    have hfull : s.isFull = false := by
      rw [State.isFull, hnone]
      rfl
    show t.result = s.result
    rw [hsame hfull, hfs.nil hnone, State.result, State.result, hnone]
    rfl

/-- The places of the syntax errors of a state, however they are sorted. -/
theorem count_syntacticPositions (s : State) (p : Pos) :
    (syntacticPositions s.findings).count p =
      s.result.errors.countP fun e => e.kind = .syntactic ∧ e.pos = p := by
  rw [State.result, (List.mergeSort_perm _ _).countP_eq, List.countP_map, syntacticPositions, List.count,
    List.countP_map, List.countP_filter]
  refine List.countP_congr fun f _ => ?_
  simp [ParseError.ofFault, and_comm]

end Parse

open Parse

/-- No placeholder is silent: of those that start at a place there are at most as many as syntax errors there. -/
theorem SourceFile.parse_placeholders (file : SourceFile) (source : String) :
    (let result := file.parse source true
      ∀ p, (result.file.stmts.flatMap Stmt.placeholders).count p ≤
        result.errors.countP fun e => e.kind = .syntactic ∧ e.pos = p) ∧
      ∀ allErrors, (file.parse source allErrors).isOk = true →
        (file.parse source allErrors).file.stmts.flatMap Stmt.placeholders = [] := by
  let s := lastState file source true
  have hbad : (s.stmts.flatMap Stmt.placeholders).Sublist (syntacticPositions s.findings) :=
    (accounted_lastState file source).1.bad
  refine ⟨fun p => ?_, fun allErrors hok => ?_⟩
  · show (s.stmts.flatMap Stmt.placeholders).count p ≤ s.result.errors.countP _
    rw [← count_syntacticPositions]
    exact hbad.count_le p
  · have hsame := parse_of_isOk hok
    rw [← hsame] at hok ⊢
    have hnone : s.findings = [] := (isOk_parse file source true).mp hok
    rw [hnone] at hbad
    exact List.sublist_nil.mp hbad

/-- Recovery stops twelve times at a token that starts no statement, each time with an error of its own. -/
theorem SourceFile.parse_placeholders_if :
    let file : SourceFile := ⟨"", 1, 2, .ofText "if"⟩
    ((file.parse "if" true).file.stmts.flatMap Stmt.placeholders).count ⟨1⟩ = 12 ∧
      12 ≤ (file.parse "if" true).errors.countP (fun e => e.kind = .syntactic ∧ e.pos = ⟨1⟩) ∧
      (file.parse "x" false).isOk = true ∧
      (file.parse "x" false).file.stmts.flatMap Stmt.placeholders = [] := by
  intro file
  have hcount : ((file.parse "if" true).file.stmts.flatMap Stmt.placeholders).count ⟨1⟩ = 12 := by decide +kernel
  have hok : (file.parse "x" false).isOk = true := (isOk_parse _ _ _).mpr (by decide +kernel)
  obtain ⟨hle, -⟩ := SourceFile.parse_placeholders file "if"
  obtain ⟨-, hnone⟩ := SourceFile.parse_placeholders file "x"
  exact ⟨hcount, hcount ▸ hle ⟨1⟩, hok, hnone false hok⟩

end RoseLang
