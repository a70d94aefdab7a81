import Mathlib.Data.List.Chain
import RoseLang.Proofs.Parse.Truncation

/-!
# Errors on one line

A parse that does not want every error passes an error over if the one kept right before it lies on the same
line. Errors are not kept in the order of the text: what is wrong with a declaration is found only when the
token after it has been read. So a line may have several errors, with one of another line between any two of
them.
-/

namespace RoseLang

section
variable {lines : List Nat}

/-- At most every other item of a list without equal neighbours is the same. -/
theorem two_mul_count_le_of_isChain (h : lines.IsChain (· ≠ ·)) (line : Nat) :
    2 * lines.count line ≤ lines.length + 1 := by
  -- An item in front that is another one leaves room for one more.
  have hhead : ∀ {a : Nat} {as : List Nat}, (a :: as).IsChain (· ≠ ·) →
      2 * (a :: as).count line ≤ (a :: as).length + if a = line then 1 else 0 := by
    intro a as h
    induction as generalizing a with
    | nil => by_cases heq : a = line <;> simp [heq]
    | cons b bs ih =>
      obtain ⟨hne, hbs⟩ := List.isChain_cons_cons.mp h
      have hrest := ih hbs
      rw [List.count_cons, List.length_cons]
      by_cases heq : a = line
      · have hother : b ≠ line := fun hb => hne (heq.trans hb.symm)
        rw [if_neg hother] at hrest
        simp only [heq, beq_self_eq_true, ↓reduceIte]
        omega
      · have hle : (if b = line then 1 else 0) ≤ 1 := by split <;> omega
        simp only [heq, beq_eq_false_iff_ne.mpr heq, Bool.false_eq_true, ↓reduceIte]
        omega
  cases lines with
  | nil => simp
  | cons a as =>
    have hle : (if a = line then 1 else 0) ≤ 1 := by split <;> omega
    exact Nat.le_trans (hhead h) (Nat.add_le_add_left hle _)

/-- Neighbours in order that are not equal leave no two equal items. -/
theorem nodup_of_isChain_of_pairwise (h : lines.IsChain (· ≠ ·)) (hordered : lines.Pairwise (· ≤ ·)) :
    lines.Nodup := by
  have hlt : lines.IsChain (· < ·) := by
    induction lines with
    | nil => exact .nil
    | cons a as ih =>
      obtain ⟨hle, hordered⟩ := List.pairwise_cons.mp hordered
      obtain ⟨hne, h⟩ := List.isChain_cons.mp h
      refine List.isChain_cons.mpr ⟨fun b hb => ?_, ih h hordered⟩
      exact Nat.lt_of_le_of_ne (hle b (List.mem_of_mem_head? hb)) (hne b hb)
  exact (List.isChain_iff_pairwise.mp hlt).imp Nat.ne_of_lt

end

namespace Parse

open State

/-- The lines on which the faults lie. -/
def faultLines (file : SourceFile) (fs : List Finding) : List Nat := fs.map fun f => (file.position f.pos).line

/-- No fault has been kept that lies on the line of the one before it. -/
structure State.Sparse (file : SourceFile) (s : State) : Prop where
  file_eq : s.file = file
  allErrors : s.allErrors = false
  chain : (faultLines file s.findings).IsChain (· ≠ ·)

namespace State.Sparse

variable {file : SourceFile} {s t : State}

theorem congr (h : s.Sparse file) (hfile : t.file = s.file) (hall : t.allErrors = s.allErrors)
    (hfindings : t.findings = s.findings) : t.Sparse file :=
  ⟨hfile.trans h.file_eq, hall.trans h.allErrors, hfindings ▸ h.chain⟩

theorem keep (h : s.Sparse file) {f : Finding} (hline : s.repeatsLine f.pos = false) :
    (s.keep f).Sparse file := by
  refine ⟨h.file_eq, h.allErrors, ?_⟩
  have hlines : faultLines file (s.keep f).findings = faultLines file s.findings ++ faultLines file [f] :=
    List.map_append
  rw [hlines]
  refine h.chain.append (List.isChain_singleton _) fun line hlast line' hfirst heq => ?_
  obtain rfl := Option.some.inj hfirst
  rw [faultLines, List.getLast?_map] at hlast
  obtain ⟨last, hmem, hlast⟩ := Option.map_eq_some_iff.mp hlast
  rw [repeatsLine, hmem, Option.any_some, h.file_eq] at hline
  exact of_decide_eq_false hline (hlast.trans heq)

theorem keepLexical (h : s.Sparse file) (e : LexError) : (s.keepLexical e).Sparse file := by
  rw [State.keepLexical]
  split
  · exact h
  · next hkept =>
    rw [h.allErrors, Bool.not_false, Bool.true_and, Bool.or_eq_true, not_or, Bool.not_eq_true] at hkept
    exact h.keep hkept.1

theorem next (h : s.Sparse file) : s.next.Sparse file := by
  have hfold : ∀ (es : List LexError) {t : State}, t.Sparse file → (es.foldl State.keepLexical t).Sparse file := by
    intro es
    induction es with
    | nil => exact fun ht => ht
    | cons e es ih => exact fun ht => ih (ht.keepLexical e)
  rw [State.next]
  split
  · exact h
  · exact hfold _ (h.congr rfl rfl rfl)

theorem skipTo (h : s.Sparse file) (kinds : List Kind) : (s.skipTo kinds).Sparse file := by
  fun_induction State.skipTo kinds s with
  | case1 s heof => exact h
  | case2 s heof t hstop =>
    obtain ⟨-, ⟨-, -, rfl⟩ | ⟨-, rfl⟩⟩ := stop?_eq_some hstop
    all_goals exact h.congr rfl rfl rfl
  | case3 s heof hstop hrest => exact h
  | case4 s heof hstop hrest ih => exact ih h.next

theorem report (h : s.Sparse file) (pos : Pos) (fault : Fault) : (endState (report pos fault) s).Sparse file := by
  rw [Parse.report, endState_congr (get_bind s _), h.allErrors]
  split
  · next hall => cases hall
  · split
    · exact h
    · next hline =>
      split
      · exact h
      · exact h.keep (Bool.eq_false_iff.mpr hline)

theorem bind {α β : Type} {p : Parser α} {f : α → Parser β} (hp : (endState p s).Sparse file)
    (hf : ∀ (a : α) {t : State}, t.Sparse file → (endState (f a) t).Sparse file) :
    (endState (p >>= f) s).Sparse file := by
  rw [endState_bind]
  rw [endState] at hp
  cases hrun : p s with
  | ok a t =>
    rw [hrun] at hp
    exact hf a hp
  | error e t =>
    rw [hrun] at hp
    exact hp

end State.Sparse

/-- Every parser keeps faults in this way, by induction on how it is built. -/
theorem Built.sparse {α : Type} {file : SourceFile} {p : Parser α} (hp : Built p) {s : State}
    (h : s.Sparse file) : (endState p s).Sparse file := by
  induction hp generalizing s with
  | pure a => exact h
  | bind _ _ ihp ihf => exact (ihp h).bind ihf
  | look f _ => exact h
  | next => exact h.next
  | report pos fault => exact h.report pos fault
  | skipTo kinds => exact h.skipTo kinds
  | setDepth f => exact h.congr rfl rfl rfl
  | setRhs inRhs => exact h.congr rfl rfl rfl
  | freshId => exact h.congr rfl rfl rfl
  | resolve i => exact h.congr rfl rfl rfl
  | declareOnly kind decl index name => exact h.congr rfl rfl rfl

theorem sparse_lastState (file : SourceFile) (source : String) : (lastState file source false).Sparse file := by
  let tokens := (Lexer.ofText source ⟨file.base⟩).lexemes
  have hstart : (State.start file false tokens).next.Sparse file := State.Sparse.next ⟨rfl, rfl, .nil⟩
  refine lastState_induction (P := (State.Sparse file ·)) hstart (hstart.congr rfl rfl rfl) ?_ ?_
  · intro s st t hs _ hst
    have ht := Built.stmt.sparse hs
    rw [endState_of_ok hst] at ht
    exact ht.congr rfl rfl rfl
  · intro s e t hs hst
    have ht := Built.stmt.sparse hs
    rwa [endState, hst] at ht

theorem lines_result_perm (s : State) :
    (s.result.errors.map (·.position.line)).Perm (faultLines s.file s.findings) := by
  have herrors := (List.mergeSort_perm (s.findings.map fun f => ParseError.ofFault s.file f.pos f.fault)
    fun a b => a.pos.index ≤ b.pos.index).map (·.position.line)
  rwa [List.map_map] at herrors

end Parse

open Parse

/-- Errors that were met one after the other lie on different lines. So a line has more than one error only if
errors were not met in the order of their lines, and never more than every other one. -/
theorem SourceFile.parse_lines (file : SourceFile) (source : String) :
    let tokens := (Lexer.ofText source ⟨file.base⟩).lexemes
    let met := faultLines file (endState (all tokens.length) (.start file false tokens)).findings
    let lines := (file.parse source false).errors.map (·.position.line)
    lines.Perm met ∧ met.IsChain (· ≠ ·) ∧ (met.Pairwise (· ≤ ·) → lines.Nodup) ∧
      ∀ line, 2 * lines.count line ≤ lines.length + 1 := by
  let s := lastState file source false
  have hsparse : s.Sparse file := sparse_lastState file source
  have hperm : (s.result.errors.map (·.position.line)).Perm (faultLines file s.findings) := by
    rw [← hsparse.file_eq]
    exact lines_result_perm s
  refine ⟨hperm, hsparse.chain, fun hordered => ?_, fun line => ?_⟩
  · exact hperm.nodup_iff.mpr (nodup_of_isChain_of_pairwise hsparse.chain hordered)
  · show 2 * (s.result.errors.map (·.position.line)).count line ≤ (s.result.errors.map _).length + 1
    rw [hperm.count_eq, hperm.length_eq]
    exact two_mul_count_le_of_isChain hsparse.chain line

/-- The error of the declaration is met last, after one on the next line; its own line has one already. -/
theorem SourceFile.parse_lines_lookahead :
    let file : SourceFile := ⟨"", 1, 9, .ofText "let a $\n$"⟩
    SourceFile.ofText "" 1 "let a $\n$" = .ok file ∧
      ¬ ((file.parse "let a $\n$" false).errors.map (·.position.line)).Nodup := by
  intro file
  refine ⟨rfl, ?_⟩
  rw [SourceFile.parse, (lines_result_perm _).nodup_iff]
  decide +kernel

end RoseLang
