import RoseLang.Proofs.Parse.Statements

/-!
# From statements to files

A parse reads the first token and, unless that is faulty, one statement after the other. `Rounds` says which statements
are made between two states, and `stmts_rounds` that a run of `stmts` does nothing else. `firstState` and `lastState`
are where the statements of a file begin and where its parse ends. What the first token brings about and each statement
keeps, the whole parse keeps: `lastState_induction` says so once for all of these properties.
-/

namespace RoseLang.Parse

/-! ### Statements one after the other -/

/-- From `s` on, `n` statements are made one after the other, up to the state `t`. -/
inductive Rounds : Nat → State → State → Prop where
  | none (s : State) : Rounds 0 s s
  | made {n : Nat} {s t u : State} {st : Stmt} (heof : s.token.kind ≠ .eof) (hst : stmt s = .ok st t)
      (h : Rounds n { t with stmts := t.stmts ++ [st] } u) : Rounds (n + 1) s u

theorem stmts_of_eof {s : State} (n : Nat) (heof : s.token.kind = .eof) : stmts n s = .ok () s := by
  cases n with
  | zero => rfl
  | succ n =>
    rw [stmts, currentKind_bind, if_pos heof]
    rfl

/-- A run of `stmts` makes statements until it is out of rounds or at the end token, or it is stopped in a statement. -/
theorem stmts_rounds (n : Nat) (s : State) :
    ∃ k t, Rounds k s t ∧ ((k = n ∨ t.token.kind = .eof) ∧ stmts n s = .ok () t ∨
      t.token.kind ≠ .eof ∧ ∃ e u, stmt t = .error e u ∧ stmts n s = .error e u) := by
  induction n generalizing s with
  | zero => exact ⟨0, s, .none s, .inl ⟨.inl rfl, rfl⟩⟩
  | succ n ih =>
    by_cases heof : s.token.kind = .eof
    · exact ⟨0, s, .none s, .inl ⟨.inr heof, stmts_of_eof _ heof⟩⟩
    · cases hst : stmt s with
      | error e t =>
        refine ⟨0, s, .none s, .inr ⟨heof, e, t, hst, ?_⟩⟩
        rw [stmts, currentKind_bind, if_neg heof]
        exact bind_eq_error.mpr (.inl hst)
      | ok st t =>
        obtain ⟨k, u, hrounds, hends⟩ := ih { t with stmts := t.stmts ++ [st] }
        have hrun : stmts (n + 1) s = stmts n { t with stmts := t.stmts ++ [st] } := by
          rw [stmts, currentKind_bind, if_neg heof, bind_of_ok hst, modify_bind]
        rw [hrun]
        exact ⟨k + 1, u, .made heof hst hrounds, hends.imp_left (And.imp_left (Or.imp_left (congrArg (· + 1))))⟩

namespace Rounds

variable {n : Nat} {s t : State}

theorem of_stmts (h : stmts n s = .ok () t) : ∃ k, Rounds k s t := by
  obtain ⟨k, u, hrounds, ⟨-, hrun⟩ | ⟨-, e, u, -, hrun⟩⟩ := stmts_rounds n s
  · rw [h] at hrun
    cases hrun
    exact ⟨k, hrounds⟩
  · rw [h] at hrun
    cases hrun

/-- The rounds of a run may be split off. -/
theorem stmts_add (h : Rounds n s t) (m : Nat) : stmts (n + m) s = stmts m t := by
  induction h with
  | none s => rw [Nat.zero_add]
  | made heof hst _ ih => rw [Nat.add_right_comm, stmts, currentKind_bind, if_neg heof, bind_of_ok hst, modify_bind, ih]

/-- What each statement keeps, all of them keep. -/
theorem keeps {P : State → Prop} (hround : ∀ s st t, P s → s.token.kind ≠ .eof → stmt s = .ok st t →
      P { t with stmts := t.stmts ++ [st] }) (h : Rounds n s t) (hs : P s) : P t := by
  induction h with
  | none s => exact hs
  | made heof hst _ ih => exact ih (hround _ _ _ hs heof hst)

theorem terminated (h : Rounds n s t) (hs : s.Terminated) : t.Terminated :=
  h.keeps (fun _ _ _ hs _ hst => (Extends.of_ok .stmt hst).terminated hs) hs

theorem length_stmts (h : Rounds n s t) : t.stmts.length = s.stmts.length + n := by
  induction h with
  | none s => rfl
  | made heof hst _ ih =>
    rw [ih, List.length_append, (Extends.of_ok .stmt hst).stmts, List.length_singleton]
    omega

end Rounds

/-- No step changes which file is parsed and which faults are wanted. -/
theorem stepRel_settings : StepRel fun s t => t.file = s.file ∧ t.allErrors = s.allErrors where
  refl _ := ⟨rfl, rfl⟩
  trans h h' := ⟨h'.1.trans h.1, h'.2.trans h.2⟩
  next s := by
    obtain ⟨findings, hnext⟩ := s.next_eq
    rw [hnext]
    exact ⟨rfl, rfl⟩
  keep _ _ := ⟨rfl, rfl⟩
  steer _ _ _ _ _ := ⟨rfl, rfl⟩
  number _ := ⟨rfl, rfl⟩
  resolve _ _ := ⟨rfl, rfl⟩
  declare _ _ _ _ _ := ⟨rfl, rfl⟩

theorem Rounds.allErrors {n : Nat} {s t : State} (h : Rounds n s t) (hs : s.allErrors = true) : t.allErrors = true :=
  h.keeps (P := (·.allErrors = true))
    (fun _ _ _ hs _ hst => ((stepRel_settings.respects .stmt).of_ok hst).2.trans hs) hs

/-- What is collected from the statements grows by what the one that is made has. -/
theorem flatMap_made {α : Type} {s t : State} {st : Stmt} (h : stmt s = .ok st t) (f : Stmt → List α) :
    (t.stmts ++ [st]).flatMap f = s.stmts.flatMap f ++ f st := by
  rw [List.flatMap_append, List.flatMap_singleton, (Extends.of_ok .stmt h).stmts]

/-- What each statement keeps, completed or stopped, all of them keep. -/
theorem stmts_induction {P : State → Prop}
    (hround : ∀ s st t, P s → s.token.kind ≠ .eof → stmt s = .ok st t → P { t with stmts := t.stmts ++ [st] })
    (hstop : ∀ s e t, P s → stmt s = .error e t → P t) (n : Nat) {s : State} (hs : P s) :
    P (endState (stmts n) s) := by
  obtain ⟨k, t, hrounds, ⟨-, hrun⟩ | ⟨-, e, u, hstopped, hrun⟩⟩ := stmts_rounds n s
  · rw [endState_of_ok hrun]
    exact hrounds.keeps hround hs
  · rw [endState, hrun]
    exact hstop t e u (hrounds.keeps hround hs) hstopped

/-- A parse that wants every fault is never stopped. -/
theorem Built.runs {α : Type} {p : Parser α} (hp : Built p) {s : State} (hall : s.allErrors = true) :
    ∃ a s', p s = .ok a s' ∧ s'.allErrors = true := by
  induction hp generalizing s with
  | pure a => exact ⟨a, s, rfl, hall⟩
  | bind _ _ ihp ihf =>
    obtain ⟨a, t, ha, ht⟩ := ihp hall
    obtain ⟨b, u, hb, hu⟩ := ihf a ht
    exact ⟨b, u, (bind_of_ok ha).trans hb, hu⟩
  | look f _ => exact ⟨f s, s, rfl, hall⟩
  | next => exact ⟨_, _, rfl, (stepRel_settings.next s).2.trans hall⟩
  | report pos fault =>
    refine ⟨(), s.keep ⟨pos, fault⟩, ?_, hall⟩
    rw [Parse.report, get_bind, if_pos hall]
    rfl
  | skipTo kinds => exact ⟨_, _, rfl, (stepRel_settings.skipTo kinds s).2.trans hall⟩
  | setDepth f => exact ⟨_, _, rfl, hall⟩
  | setRhs inRhs => exact ⟨_, _, rfl, hall⟩
  | freshId => exact ⟨_, _, rfl, hall⟩
  | resolve i => exact ⟨_, _, rfl, hall⟩
  | declareOnly kind decl index name => exact ⟨_, _, rfl, hall⟩

/-- A parse that wants every fault, or that keeps none, goes through all statements. -/
theorem stmts_ends {n : Nat} {s : State} (h : s.allErrors = true ∨ (endState (stmts n) s).findings = []) :
    stmts n s = .ok () (endState (stmts n) s) := by
  obtain ⟨k, t, hrounds, ⟨-, hrun⟩ | ⟨-, e, u, hst, hrun⟩⟩ := stmts_rounds n s
  · rw [endState_of_ok hrun, hrun]
  · exfalso
    rcases h with hall | hclean
    · obtain ⟨st, v, hst', -⟩ := Built.stmt.runs (hrounds.allErrors hall)
      rw [hst] at hst'
      cases hst'
    · have hfull := (stepRel_settings.respects .stmt).isFull hst
      rw [endState, hrun] at hclean
      rw [State.isFull, hclean] at hfull
      cases hfull

/-! ### Files -/

theorem terminated_start (file : SourceFile) (allErrors : Bool) (l : Lexer) :
    (State.start file allErrors l.lexemes).Terminated := by
  obtain ⟨us, t, hus, ht, hmem⟩ := l.endsOnce_lexemes
  refine ⟨⟨.illegal, ⟨.none, .none⟩, ""⟩ :: us, t, ?_, ht, ?_⟩
  · rw [State.tokens, State.start, hus, List.cons_append]
  · intro u hu
    rcases List.mem_cons.mp hu with rfl | hu
    · decide
    · exact hmem u hu

/-- Where a parse starts, the tokens to come are those of the text. -/
theorem tokens_next_start (file : SourceFile) (allErrors : Bool) (l : Lexer) :
    (State.start file allErrors l.lexemes).next.tokens = l.lexemes.map Lexeme.token := by
  have hkind : (State.start file allErrors l.lexemes).token.kind = .illegal := rfl
  have htokens := (terminated_start file allErrors l).tokens_next (by rw [hkind]; decide)
  exact (List.cons.inj htokens).2.symm

theorem endState_all (n : Nat) (s : State) :
    endState (all n) s =
      if s.next.findings.isEmpty then
        endState (stmts (maxStmts n)) { s.next with names := (s.next.names.openScope .file).2 }
      else s.next := by
  rw [all, endState_congr (next_bind s _), endState_congr (get_bind s.next _)]
  split
  · rfl
  · rfl

/-- Where the statements of a file begin. -/
def firstState (file : SourceFile) (source : String) (allErrors : Bool) : State :=
  let s := (State.start file allErrors (Lexer.ofText source ⟨file.base⟩).lexemes).next
  { s with names := (s.names.openScope .file).2 }

/-- Where the parse of a file ends. -/
def lastState (file : SourceFile) (source : String) (allErrors : Bool) : State :=
  let tokens := (Lexer.ofText source ⟨file.base⟩).lexemes
  endState (all tokens.length) (.start file allErrors tokens)

section
variable (file : SourceFile) (source : String) (allErrors : Bool)

theorem parse_eq_result : file.parse source allErrors = (lastState file source allErrors).result := rfl

theorem isOk_parse : (file.parse source allErrors).isOk = true ↔ (lastState file source allErrors).findings = [] := by
  rw [parse_eq_result, ParseResult.isOk, State.result, List.isEmpty_iff, ← List.length_eq_zero_iff,
    List.length_mergeSort, List.length_map, List.length_eq_zero_iff]

theorem terminated_firstState : (firstState file source allErrors).Terminated :=
  (Extends.next _).terminated (terminated_start file allErrors _)

theorem stmts_firstState : (firstState file source allErrors).stmts = [] := (Extends.next _).stmts

theorem allErrors_firstState : (firstState file source allErrors).allErrors = allErrors := (stepRel_settings.next _).2

theorem depth_firstState : (firstState file source allErrors).depth = 0 := by
  obtain ⟨findings, hnext⟩ := (State.start file allErrors (Lexer.ofText source ⟨file.base⟩).lexemes).next_eq
  exact congrArg State.depth hnext

theorem names_next_start (ls : List Lexeme) : (State.start file allErrors ls).next.names = .empty := by
  obtain ⟨findings, hnext⟩ := (State.start file allErrors ls).next_eq
  exact congrArg State.names hnext

theorem names_firstState : (firstState file source allErrors).names = (Resolver.empty.openScope .file).2 :=
  congrArg (fun names => (names.openScope .file).2) (names_next_start file allErrors _)

theorem tokens_firstState : (firstState file source allErrors).tokens = (Lexer.ofText source ⟨file.base⟩).tokenize.1 :=
  tokens_next_start file allErrors (Lexer.ofText source ⟨file.base⟩)

theorem length_rest_firstState_le :
    (firstState file source allErrors).rest.length ≤ (Lexer.ofText source ⟨file.base⟩).lexemes.length := by
  show (State.start file allErrors (Lexer.ofText source ⟨file.base⟩).lexemes).next.rest.length ≤ _
  rw [State.rest_next]
  exact (List.tail_suffix _).length_le

theorem length_tokens_firstState_le :
    2 * (firstState file source allErrors).tokens.length ≤
      maxStmts (Lexer.ofText source ⟨file.base⟩).lexemes.length := by
  rw [tokens_firstState, Lexer.tokenize, List.length_map, maxStmts, maxRetries]
  omega

end

section
variable {file : SourceFile} {source : String} {allErrors : Bool}

theorem lastState_of_clean (h : (firstState file source allErrors).findings = []) :
    lastState file source allErrors =
      endState (stmts (maxStmts (Lexer.ofText source ⟨file.base⟩).lexemes.length))
        (firstState file source allErrors) := by
  rw [lastState, endState_all]
  exact if_pos (List.isEmpty_iff.mpr h)

/-- A file whose first token is faulty is not parsed. -/
theorem lastState_of_faulty (h : (firstState file source allErrors).findings ≠ []) :
    lastState file source allErrors =
      (State.start file allErrors (Lexer.ofText source ⟨file.base⟩).lexemes).next := by
  rw [lastState, endState_all]
  exact if_neg fun hempty => h (List.isEmpty_iff.mp hempty)

/-- A parse without a fault has met none where it starts. -/
theorem findings_firstState_of_clean (h : (lastState file source allErrors).findings = []) :
    (firstState file source allErrors).findings = [] := by
  by_cases hfirst : (firstState file source allErrors).findings = []
  · exact hfirst
  · rw [lastState_of_faulty hfirst] at h
    exact h

/-- A parse that wants every fault, or that keeps none, goes through all statements of the file. -/
theorem stmts_lastState (hfirst : (firstState file source allErrors).findings = [])
    (h : allErrors = true ∨ (lastState file source allErrors).findings = []) :
    stmts (maxStmts (Lexer.ofText source ⟨file.base⟩).lexemes.length) (firstState file source allErrors) =
      .ok () (lastState file source allErrors) := by
  rw [lastState_of_clean hfirst] at h ⊢
  exact stmts_ends (h.imp_left (allErrors_firstState file source allErrors).trans)

theorem lastState_induction {P : State → Prop}
    (hstart : P (State.start file allErrors (Lexer.ofText source ⟨file.base⟩).lexemes).next)
    (hfirst : P (firstState file source allErrors))
    (hround : ∀ s st t, P s → s.token.kind ≠ .eof → stmt s = .ok st t → P { t with stmts := t.stmts ++ [st] })
    (hstop : ∀ s e t, P s → stmt s = .error e t → P t) : P (lastState file source allErrors) := by
  by_cases h : (firstState file source allErrors).findings = []
  · rw [lastState_of_clean h]
    exact stmts_induction hround hstop _ hfirst
  · rw [lastState_of_faulty h]
    exact hstart

end

theorem settings_lastState (file : SourceFile) (source : String) (allErrors : Bool) :
    (lastState file source allErrors).file = file ∧ (lastState file source allErrors).allErrors = allErrors := by
  have hstart := stepRel_settings.next (State.start file allErrors (Lexer.ofText source ⟨file.base⟩).lexemes)
  refine lastState_induction (P := fun s => s.file = file ∧ s.allErrors = allErrors) hstart hstart ?_ ?_
  · rintro s st t ⟨hfile, hall⟩ - hst
    obtain ⟨hfile', hall'⟩ := (stepRel_settings.respects .stmt).of_ok hst
    exact ⟨hfile'.trans hfile, hall'.trans hall⟩
  · rintro s e t ⟨hfile, hall⟩ hst
    obtain ⟨hfile', hall'⟩ := (stepRel_settings.respects .stmt).of_error hst
    exact ⟨hfile'.trans hfile, hall'.trans hall⟩

/-- What every statement made has, all statements of a parse have, stopped or not. -/
theorem forall_stmts_parse {P : Stmt → Prop}
    (hstmt : ∀ s st s', s.Terminated → stmt s = .ok st s' → P st) (file : SourceFile) (source : String)
    (allErrors : Bool) : ∀ st ∈ (file.parse source allErrors).file.stmts, P st := by
  let tokens := (Lexer.ofText source ⟨file.base⟩).lexemes
  have hnone : ∀ st ∈ (State.start file allErrors tokens).next.stmts, P st := by
    intro st hst
    rw [(Extends.next _).stmts] at hst
    cases hst
  have hterminated := terminated_firstState file source allErrors
  refine (lastState_induction (P := fun s => s.Terminated ∧ ∀ st ∈ s.stmts, P st) ⟨hterminated, hnone⟩
    ⟨hterminated, hnone⟩ ?_ ?_).2
  · rintro s st t ⟨hs, hP⟩ - hst
    have hextends := Extends.of_ok .stmt hst
    refine ⟨hextends.terminated hs, fun made hmade => ?_⟩
    rcases List.mem_append.mp hmade with hmade | hmade
    · exact hP made (hextends.stmts ▸ hmade)
    · obtain rfl := List.mem_singleton.mp hmade
      exact hstmt s made t hs hst
  · rintro s e t ⟨hs, hP⟩ hst
    have hextends := Extends.of_error .stmt hst
    exact ⟨hextends.terminated hs, hextends.stmts ▸ hP⟩

end RoseLang.Parse
