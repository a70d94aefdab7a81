import Mathlib.Logic.Function.Basic

/-!
# Runs

Calls are made one after another on a state that is kept between them. What each call preserves, a run of
calls preserves, and two states that answer each call alike answer every run of calls alike.
-/

namespace RoseLang

variable {σ τ κ α : Type} {step : σ → κ → α × σ} {step' : τ → κ → α × τ}

/-- The answers to calls one after another, and the state after the last of them. -/
def runAll (step : σ → κ → α × σ) (s : σ) : List κ → List α × σ
  | [] => ([], s)
  | call :: calls =>
    let (answer, s) := step s call
    let (answers, s) := runAll step s calls
    (answer :: answers, s)

theorem runAll_cons (s : σ) (call : κ) (calls : List κ) :
    runAll step s (call :: calls) =
      ((step s call).1 :: (runAll step (step s call).2 calls).1, (runAll step (step s call).2 calls).2) := rfl

theorem runAll_append (s : σ) (before after : List κ) :
    runAll step s (before ++ after) =
      ((runAll step s before).1 ++ (runAll step (runAll step s before).2 after).1,
        (runAll step (runAll step s before).2 after).2) := by
  induction before generalizing s with
  | nil => rfl
  | cons call before ih =>
    rw [List.cons_append, runAll_cons, ih]
    rfl

theorem length_runAll (s : σ) (calls : List κ) : (runAll step s calls).1.length = calls.length := by
  induction calls generalizing s with
  | nil => rfl
  | cons call calls ih => rw [runAll_cons, List.length_cons, List.length_cons, ih]

/-- The answer to a call is that of the state which the calls before it have left. -/
theorem getElem?_runAll (s : σ) (before : List κ) (call : κ) (after : List κ) :
    (runAll step s (before ++ call :: after)).1[before.length]? = some (step (runAll step s before).2 call).1 := by
  have hlength : (runAll step s before).1.length = before.length := length_runAll s before
  rw [runAll_append, List.getElem?_append_right (Nat.le_of_eq hlength), hlength, Nat.sub_self, runAll_cons]
  rfl

/-- What each call preserves holds after a run. -/
theorem runAll_invariant {Inv : σ → Prop} (hstep : ∀ s call, Inv s → Inv (step s call).2) {s : σ} (hs : Inv s)
    (calls : List κ) : Inv (runAll step s calls).2 := by
  induction calls generalizing s with
  | nil => exact hs
  | cons call calls ih =>
    apply ih
    exact hstep s call hs

/-- Two states that answer each call alike, and are then related again, answer a run alike. -/
theorem runAll_simulates {R : σ → τ → Prop}
    (hstep : ∀ s t call, R s t → (step s call).1 = (step' t call).1 ∧ R (step s call).2 (step' t call).2)
    {s : σ} {t : τ} (h : R s t) (calls : List κ) :
    (runAll step s calls).1 = (runAll step' t calls).1 ∧ R (runAll step s calls).2 (runAll step' t calls).2 := by
  induction calls generalizing s t with
  | nil => exact ⟨rfl, h⟩
  | cons call calls ih =>
    obtain ⟨hanswer, hnext⟩ := hstep s t call h
    obtain ⟨hanswers, hlast⟩ := ih hnext
    rw [runAll_cons, runAll_cons, hanswer, hanswers]
    exact ⟨rfl, hlast⟩

/-- A list to which each call adds what its answer says has, after a run, what all answers say. -/
theorem runAll_adds {β : Type} {list : σ → List β} {added : κ × α → Option β}
    (hstep : ∀ s call, list (step s call).2 = list s ++ (added (call, (step s call).1)).toList)
    (s : σ) (calls : List κ) :
    list (runAll step s calls).2 = list s ++ (calls.zip (runAll step s calls).1).filterMap added := by
  induction calls generalizing s with
  | nil => exact (List.append_nil _).symm
  | cons call calls ih =>
    rw [runAll_cons, ih, hstep, List.zip_cons_cons, List.append_assoc]
    congr 1
    cases h : added (call, (step s call).1) with
    | none => rw [List.filterMap_cons_none h]; rfl
    | some b => rw [List.filterMap_cons_some h]; rfl

end RoseLang
