import RoseLang.Proofs.Parse.Ledger

/-!
# The numbers that a parse gives out

A node gets the next number when all its parts have theirs. `Counted` says of the numbers of what has been made
that they increase and have been given out, and is a ledger of the numbers.
-/

namespace RoseLang

namespace Parse

variable {given : List NodeId} {s s' : State}

/-- No step takes a number back or touches the complete statements. -/
theorem stepRel_numbers : StepRel fun s t => s.nextId ≤ t.nextId ∧ t.stmts = s.stmts where
  refl _ := ⟨Nat.le_refl _, rfl⟩
  trans h h' := ⟨Nat.le_trans h.1 h'.1, h'.2.trans h.2⟩
  next s := ⟨(LooksUp.next s).nextId_le, (Extends.next s).stmts⟩
  keep _ _ := ⟨Nat.le_refl _, rfl⟩
  steer _ _ _ _ _ := ⟨Nat.le_refl _, rfl⟩
  number _ := ⟨Nat.le_succ _, rfl⟩
  resolve _ _ := ⟨Nat.le_refl _, rfl⟩
  declare _ _ _ _ _ := ⟨Nat.le_refl _, rfl⟩

/-- The numbers increase, and all of them have been given out. -/
structure Counted (given : List NodeId) (s : State) : Prop where
  increasing : given.Pairwise (· < ·)
  lt : ∀ id ∈ given, id < s.nextId

namespace Counted

theorem nil (s : State) : Counted [] s := ⟨.nil, by simp⟩

theorem mono (h : Counted given s) (hle : s.nextId ≤ s'.nextId) : Counted given s' :=
  ⟨h.increasing, fun id hid => Nat.lt_of_lt_of_le (h.lt id hid) hle⟩

theorem fewer {ids : List NodeId} (h : Counted given s) (hids : ids.Sublist given) : Counted ids s :=
  ⟨h.increasing.sublist hids, fun id hid => h.lt id (hids.subset hid)⟩

theorem freshId (h : Counted given s) : Counted (given ++ [s.nextId]) { s with nextId := s.nextId + 1 } where
  increasing := List.pairwise_append.mpr ⟨h.increasing, List.pairwise_singleton _ _, fun id hid id' hid' => by
    rw [List.mem_singleton.mp hid']
    exact h.lt id hid⟩
  lt id hid := by
    rcases List.mem_append.mp hid with hid | hid
    · exact Nat.lt_succ_of_lt (h.lt id hid)
    · rw [List.mem_singleton.mp hid]
      exact Nat.lt_succ_self _

end Counted

theorem counted_ledger (ls : List Lexeme) :
    Ledger ls .numbers fun given s => s.tokens <:+ ls.map Lexeme.token ∧ Counted given s where
  tokens h := h.1
  fewer h hkept := ⟨h.1, h.2.fewer hkept⟩
  next h := ⟨(State.tokens_next_suffix _).trans h.1, h.2.mono (stepRel_numbers.next _).1⟩
  steer _ _ _ _ _ _ h := ⟨h.1, h.2.mono (Nat.le_refl _)⟩
  number h := ⟨h.1, h.2.freshId⟩
  report {given s s' pos fault} h _ hrun := by
    have hnone : Walk.numbers.fault pos fault = [] := ite_self _
    have hbuilt := Built.report pos fault
    rw [hnone, List.append_nil]
    exact ⟨(Extends.of_ok hbuilt hrun).tokens.trans h.1, h.2.mono ((stepRel_numbers.respects hbuilt).of_ok hrun).1⟩

/-- The step lemma: a statement has the numbers that are given out for it. -/
theorem Counted.made {st : Stmt} (h : Counted (s.stmts.flatMap Stmt.numbers) s) (hst : Parse.stmt s = .ok st s') :
    Counted ((s'.stmts ++ [st]).flatMap Stmt.numbers) { s' with stmts := s'.stmts ++ [st] } := by
  have hledger := counted_ledger (⟨s.token, []⟩ :: s.rest)
  rw [← Stmt.walk_numbers] at h ⊢
  exact (hledger.made ⟨List.suffix_rfl, h⟩ hst).2

/-- The run lemma, also for a run that is stopped: the statements completed by then are numbered one after the
other. -/
theorem counted_lastState (file : SourceFile) (source : String) (allErrors : Bool) :
    let s := lastState file source allErrors
    Counted (s.stmts.flatMap Stmt.numbers) s := by
  let start := (State.start file allErrors (Lexer.ofText source ⟨file.base⟩).lexemes).next
  have hstart : Counted (start.stmts.flatMap Stmt.numbers) start := by
    have hnone : start.stmts = [] := (Extends.next _).stmts
    rw [hnone]
    exact .nil start
  refine lastState_induction (P := fun s => Counted (s.stmts.flatMap Stmt.numbers) s) hstart
    (hstart.mono (Nat.le_refl _)) (fun _ _ _ hs _ => hs.made) fun s e t hs hst => ?_
  obtain ⟨hle, hstmts⟩ := (stepRel_numbers.respects .stmt).of_error hst
  rw [hstmts]
  exact hs.mono hle

end Parse

open Parse

/-- How many numbers a parse gives out. -/
def SourceFile.numbersGiven (file : SourceFile) (source : String) (allErrors : Bool) : Nat :=
  let tokens := (Lexer.ofText source ⟨file.base⟩).lexemes
  (endState (all tokens.length) (.start file allErrors tokens)).nextId

/-- The numbers increase along a walk that leaves each node after its parts, so no two nodes have the same one. -/
theorem SourceFile.parse_numbers (file : SourceFile) (source : String) (allErrors : Bool)
    (h : file.numbersGiven source allErrors < 4294967296) :
    let stmts := (file.parse source allErrors).file.stmts
    let numbers := stmts.flatMap Stmt.numbers
    numbers.Pairwise (· < ·) ∧ numbers.Nodup ∧ NodeId.dummy ∉ numbers ∧
      ∀ n m, Occurs n (stmts.map .stmt) → Occurs m n.children → m.id < n.id := by
  have hcounted := counted_lastState file source allErrors
  intro stmts numbers
  have hincreasing : numbers.Pairwise (· < ·) := hcounted.increasing
  refine ⟨hincreasing, hincreasing.imp Nat.ne_of_lt, fun hdummy => ?_, fun n m hn hm => ?_⟩
  · have hlt : NodeId.dummy < file.numbersGiven source allErrors := hcounted.lt _ hdummy
    exact absurd hlt (Nat.not_lt.mpr (Nat.le_of_lt_succ h))
  · refine hn.id_lt ?_ hm
    rw [List.flatMap_map]
    exact hincreasing

/-- The numbers of an expression that is not kept are given out, and are those of no node. -/
theorem SourceFile.parse_numbers_dropped :
    let file : SourceFile := ⟨"", 1, 14, .ofText "x, y\nlet a = b"⟩
    let stmts := (file.parse "x, y\nlet a = b" false).file.stmts
    file.numbersGiven "x, y\nlet a = b" false = 11 ∧ stmts.flatMap Stmt.numbers = [0, 1, 4, 5, 6, 7, 8, 9, 10] ∧
      (stmts.flatMap Stmt.numbers).Pairwise (· < ·) ∧ NodeId.dummy ∉ stmts.flatMap Stmt.numbers := by
  intro file stmts
  have hgiven : file.numbersGiven "x, y\nlet a = b" false = 11 := by decide +kernel
  have hnumbers : stmts.flatMap Stmt.numbers = [0, 1, 4, 5, 6, 7, 8, 9, 10] := by decide +kernel
  obtain ⟨hincreasing, -, hdummy, -⟩ := SourceFile.parse_numbers file "x, y\nlet a = b" false (by rw [hgiven]; decide)
  exact ⟨hgiven, hnumbers, hincreasing, hdummy⟩

end RoseLang
