import RoseLang.Proofs.Parse.Levels.Checked
import RoseLang.Proofs.Parse.Names.Stmt
import RoseLang.Proofs.Parse.Progress

/-!
# Levels of a file

What expressions and types restore, statements leave alone, whether they are faulty or not. So each statement of a file
starts at depth zero and may enter all levels that there are.
-/

namespace RoseLang.Parse

variable {α : Type}

/-- No check of `c` ever fails: it does what `p` does, from any state. Where `p` comes to its end, the context is the one
in which it started. -/
def Balanced (c : Checked α) (p : Parser α) : Prop :=
  ∀ s, c s = Checked.of p s ∧ ∀ a t, p s = .ok a t → SameContext s t

theorem Keeps.balanced {c : Checked α} {p : Parser α} (h : ∀ d, Keeps d (· = d) c p) : Balanced c p := by
  intro s
  obtain ⟨hsame, hends⟩ := h s.depth s rfl
  refine ⟨hsame, fun a t hrun => ?_⟩
  obtain ⟨hdepth, hside⟩ := hends a t hrun
  exact ⟨hdepth, hside⟩

theorem Balanced.restores {c : Checked α} {p : Parser α} (h : Balanced c p) : Restores p := fun s => (h s).2

namespace Balanced

theorem expr (lhs : Bool) : Balanced (Checked.expr lhs) (expr lhs) := Keeps.balanced fun _ => .expr lhs

/-- An operand with the unary operators before it, if any. Its room is what is left where it starts. -/
theorem unary (lhs : Bool) :
    Balanced (do Checked.unary (← roomLeft) lhs) (do Parse.unary (← roomLeft) lhs) :=
  Keeps.balanced fun _ => .roomLeft (.unary rfl lhs)

theorem type? : Balanced Checked.type? type? := Keeps.balanced fun _ => .type?

theorem lhsList : Balanced Checked.lhsList lhsList := Keeps.balanced fun _ => .lhsList

theorem rhsList : Balanced Checked.rhsList rhsList := Keeps.balanced fun _ => .rhsList

end Balanced

/-! ### Statements -/

namespace Restores

theorem initialValues : Restores initialValues := by
  refine .bind .currentKind fun kind => ?_
  split
  · exact .bind .next fun _ => Balanced.rhsList.restores
  · exact .pure []

theorem spec (keyword : DeclKeyword) (index : Nat) : Restores (spec keyword index) :=
  .bind .currentPos fun _ => .bind .nameList fun _ => .bind Balanced.type?.restores fun _ =>
    .bind .initialValues fun _ => .bind .expectSemi fun _ => .bind (.reportAny _) fun _ =>
      .bind .freshId fun _ => .bind (.mapM (.declare _ _ _) _) fun _ => .pure _

theorem specs (keyword : DeclKeyword) (index n : Nat) : Restores (specs keyword index n) := by
  induction n generalizing index with
  | zero => exact .pure []
  | succ n ih =>
    refine .bind .currentKind fun kind => ?_
    split
    · exact .pure []
    · exact .pure []
    · exact .bind (.spec keyword index) fun _ => .bind (ih (index + 1)) fun _ => .pure _

theorem decl (keyword : DeclKeyword) : Restores (decl keyword) := by
  refine .bind (.expect _) fun _ => .bind .currentKind fun kind => ?_
  split
  · exact .bind (.expect _) fun _ => .bounded (.specs keyword 0) fun _ => .bind (.expect _) fun _ =>
      .bind .expectSemi fun _ => .bind .freshId fun _ => .pure _
  · exact .bind (.spec _ _) fun _ => .bind .freshId fun _ => .pure _

theorem simple : Restores simple := by
  refine .bind Balanced.lhsList.restores fun list => .bind .currentToken fun t => ?_
  split
  · exact .bind .next fun _ => .bind Balanced.rhsList.restores fun _ => .pure _
  · refine .bind (.reportAny _) fun _ => ?_
    split
    · exact .bind .next fun _ => .pure _
    · exact .bind .next fun _ => .pure _
    · exact .pure _

theorem stmt : Restores stmt := by
  refine .bind .currentToken fun t => ?_
  split
  · exact .bind (.decl _) fun _ => .bind .freshId fun _ => .pure _
  · split
    · exact .bind .simple fun _ => .bind .expectSemi fun _ => .bind .freshId fun _ => .pure _
    · split
      · exact .bind .next fun _ => .bind .freshId fun _ => .pure _
      · exact .bind (.skipped _ (.expected _)) fun _ => .bind .freshId fun _ => .pure _

end Restores

/-- The run lemma: what each statement restores, the statements of a file do. -/
theorem Rounds.sameContext {n : Nat} {s t : State} (h : Rounds n s t) : SameContext s t := by
  refine h.keeps (P := SameContext s) (fun t st u ht _ hst => ?_) (.refl s)
  have hmade : SameContext u { u with stmts := u.stmts ++ [st] } := ⟨rfl, rfl⟩
  exact (ht.trans (Restores.stmt t st u hst)).trans hmade

theorem sameContext_firstState (file : SourceFile) (source : String) (allErrors : Bool) :
    SameContext (.start file allErrors (Lexer.ofText source ⟨file.base⟩).lexemes)
      (firstState file source allErrors) :=
  (SameContext.next _).trans ⟨rfl, rfl⟩

/-- Expressions, operands, types and lists of expressions enter levels only below the limit, leave none that they have
not entered, and restore the context, in whatever state they are called. So each statement of a file is called at depth
zero, on no right-hand side and with room for all levels, whatever the statements before it are. -/
theorem parse_levels (file : SourceFile) (source : String) (allErrors : Bool) :
    (∀ lhs, Balanced (Checked.expr lhs) (expr lhs)) ∧
      (∀ lhs, Balanced (do Checked.unary (← roomLeft) lhs) (do unary (← roomLeft) lhs)) ∧
      Balanced Checked.type? type? ∧ Balanced Checked.lhsList lhsList ∧ Balanced Checked.rhsList rhsList ∧
      ∀ n t, Rounds n (firstState file source allErrors) t →
        t.depth = 0 ∧ t.inRhs = false ∧ roomLeft t = .ok maxDepth t := by
  refine ⟨.expr, .unary, .type?, .lhsList, .rhsList, fun n t h => ?_⟩
  obtain ⟨hdepth, hinRhs⟩ := (sameContext_firstState file source allErrors).trans h.sameContext
  have hzero : t.depth = 0 := hdepth
  refine ⟨hzero, hinRhs, ?_⟩
  have hroom : roomLeft t = .ok (maxDepth - t.depth) t := rfl
  rw [hroom, hzero, Nat.sub_zero]

/-- A statement that goes wrong inside parentheses leaves no level to the next one. -/
theorem parse_levels_faulty :
    let source := "-(a + )\nlet\nb, -c = (d)"
    let first := firstState ⟨"", 1, source.utf8ByteSize, LineMap.ofText source⟩ source true
    ∃ t, Rounds 1 first t ∧ t.findings ≠ [] ∧ t.token.text = "b" ∧
      t.depth = 0 ∧ t.inRhs = false ∧ roomLeft t = .ok maxDepth t := by
  intro source first
  obtain ⟨st, t, hst, -⟩ := Built.stmt.runs (s := first) (by decide +kernel)
  have hround : Rounds 1 first _ := .made (by decide +kernel) hst (.none _)
  have hend : endState stmt first = t := endState_of_ok hst
  obtain ⟨-, -, -, -, -, hlevels⟩ := parse_levels ⟨"", 1, source.utf8ByteSize, LineMap.ofText source⟩ source true
  refine ⟨_, hround, ?_, ?_, hlevels 1 _ hround⟩
  · show t.findings ≠ []
    rw [← hend]
    decide +kernel
  · show t.token.text = "b"
    rw [← hend]
    decide +kernel

end RoseLang.Parse
