import RoseLang.Proofs.Parse.Files

/-!
# Stopping at too many errors

A parse that wants every fault and one that does not take the same steps as long as the second one is not
stopped: `Covers` says how the faults that the first one has kept relate to those of the second. Once that
is stopped the first one goes on and only adds to what both have made. So what the second one gives is the
first part of what the first one gives.
-/

namespace RoseLang

section
variable {α : Type} {le : α → α → Bool} (trans : ∀ a b c, le a b → le b c → le a c)
  (total : ∀ a b, le a b || le b a)
include trans total

/-- Sorting puts the first element between those that must be before it and all others. -/
theorem mergeSort_cons_eq (a : α) (as : List α) :
    (a :: as).mergeSort le = (as.mergeSort le).filter (!le a ·) ++ a :: (as.mergeSort le).filter (le a ·) := by
  obtain ⟨bs, cs, hsort, hrest, hbs⟩ := List.mergeSort_cons trans total a as
  have hsorted := List.pairwise_mergeSort trans total (a :: as)
  rw [hsort, List.pairwise_append, List.pairwise_cons] at hsorted
  have hcs : ∀ c ∈ cs, le a c = true := hsorted.2.1.1
  rw [hsort, hrest, List.filter_append, List.filter_append, List.filter_eq_self.mpr hbs,
    List.filter_eq_nil_iff.mpr (by simpa using hcs), List.filter_eq_nil_iff.mpr (by simpa using hbs),
    List.filter_eq_self.mpr hcs, List.append_nil, List.nil_append]

theorem mergeSort_sublist_mergeSort {as bs : List α} (h : as.Sublist bs) :
    (as.mergeSort le).Sublist (bs.mergeSort le) := by
  induction h with
  | slnil => exact List.Sublist.refl _
  | cons b _ ih =>
    refine ih.trans ?_
    obtain ⟨cs, ds, hsort, hrest, -⟩ := List.mergeSort_cons trans total b _
    rw [hsort, hrest]
    exact (List.sublist_cons_self b ds).append_left cs
  | cons_cons a _ ih =>
    rw [mergeSort_cons_eq trans total, mergeSort_cons_eq trans total]
    exact (ih.filter _).append ((ih.filter _).cons_cons a)

/-- It makes no difference whether elements are picked before sorting or after it. -/
theorem filter_mergeSort (p : α → Bool) (as : List α) :
    (as.mergeSort le).filter p = (as.filter p).mergeSort le := by
  induction as with
  | nil => simp
  | cons a as ih =>
    by_cases ha : p a
    · have hcomm : ∀ (q : α → Bool) (bs : List α), (bs.filter q).filter p = (bs.filter p).filter q := by
        intro q bs
        simp only [List.filter_filter, Bool.and_comm]
      rw [List.filter_cons_of_pos ha, mergeSort_cons_eq trans total, mergeSort_cons_eq trans total,
        List.filter_append, List.filter_cons_of_pos ha, hcomm, hcomm, ih]
    · obtain ⟨bs, cs, hsort, hrest, -⟩ := List.mergeSort_cons trans total a as
      rw [List.filter_cons_of_neg ha, ← ih, hsort, hrest, List.filter_append, List.filter_append,
        List.filter_cons_of_neg ha]

end

namespace Parse

variable {α β : Type}

/-! ### What a parse that goes on adds -/

/-- What has been made and kept in the state `s` is the first part of what has been in `t`. -/
structure Grows (s t : State) : Prop where
  file : t.file = s.file
  stmts : s.stmts <+: t.stmts
  objects : s.names.objects <+: t.names.objects
  unresolved : s.names.unresolved <+: t.names.unresolved
  findings : s.findings <+: t.findings

namespace Grows

theorem refl (s : State) : Grows s s :=
  ⟨rfl, List.prefix_rfl, List.prefix_rfl, List.prefix_rfl, List.prefix_rfl⟩

theorem trans {s t u : State} (h : Grows s t) (h' : Grows t u) : Grows s u where
  file := h'.file.trans h.file
  stmts := h.stmts.trans h'.stmts
  objects := h.objects.trans h'.objects
  unresolved := h.unresolved.trans h'.unresolved
  findings := h.findings.trans h'.findings

theorem keepLexical (s : State) (e : LexError) : Grows s (s.keepLexical e) := by
  rw [State.keepLexical]
  split
  · exact .refl s
  · exact ⟨rfl, List.prefix_rfl, List.prefix_rfl, List.prefix_rfl, List.prefix_append _ _⟩

theorem next (s : State) : Grows s s.next := by
  have hfold : ∀ (es : List LexError) (t : State), Grows t (es.foldl State.keepLexical t) := by
    intro es
    induction es with
    | nil => exact .refl
    | cons e es ih => exact fun t => (keepLexical t e).trans (ih _)
  rw [State.next]
  split
  · exact .refl s
  · next l rest _ =>
    have hread : Grows s { s with token := l.token, rest } :=
      ⟨rfl, List.prefix_rfl, List.prefix_rfl, List.prefix_rfl, List.prefix_rfl⟩
    exact hread.trans (hfold _ _)

end Grows

theorem objects_resolve (r : Resolver) (i : Ident) : (r.resolve i true).2.2.objects = r.objects := by
  rw [Resolver.resolve]
  split
  · rfl
  · split <;> rfl

theorem unresolved_resolve (r : Resolver) (i : Ident) :
    r.unresolved <+: (r.resolve i true).2.2.unresolved := by
  rw [Resolver.resolve]
  split
  · exact List.prefix_rfl
  · split
    · exact List.prefix_rfl
    · exact List.prefix_append _ _

theorem objects_declare (r : Resolver) (i : Ident) (kind : ObjectKind) (decl : NodeId) (index : Nat) :
    r.objects <+: (r.declare i kind decl index).2.2.objects := by
  rw [Resolver.declare]
  dsimp only
  split
  · exact List.prefix_append _ _
  · exact List.prefix_append _ _

theorem unresolved_declare (r : Resolver) (i : Ident) (kind : ObjectKind) (decl : NodeId) (index : Nat) :
    (r.declare i kind decl index).2.2.unresolved = r.unresolved := by
  rw [Resolver.declare]
  dsimp only
  split <;> rfl

theorem stepRel_grows : StepRel Grows where
  refl := .refl
  trans := .trans
  next := .next
  keep _ _ := ⟨rfl, List.prefix_rfl, List.prefix_rfl, List.prefix_rfl, List.prefix_append _ _⟩
  steer _ _ _ _ _ := ⟨rfl, List.prefix_rfl, List.prefix_rfl, List.prefix_rfl, List.prefix_rfl⟩
  number _ := ⟨rfl, List.prefix_rfl, List.prefix_rfl, List.prefix_rfl, List.prefix_rfl⟩
  resolve s i :=
    ⟨rfl, List.prefix_rfl, (objects_resolve s.names i).symm ▸ List.prefix_rfl, unresolved_resolve s.names i,
      List.prefix_rfl⟩
  declare s i kind decl index :=
    ⟨rfl, List.prefix_rfl, objects_declare s.names i kind decl index,
      (unresolved_declare s.names i kind decl index).symm ▸ List.prefix_rfl, List.prefix_rfl⟩

/-! ### Two runs -/

namespace State

/-- The state of a parse that wants every fault and has kept `fs`, for the rest the same. -/
def keepingAll (s : State) (fs : List Finding) : State := { s with allErrors := true, findings := fs }

/-- What a parse that does not want every fault has kept, against the faults `fs` that one keeps that does.
The faults passed over lie on lines of others that were kept, unless there are too many. -/
structure Covers (s : State) (fs : List Finding) : Prop where
  allErrors : s.allErrors = false
  sublist : s.findings.Sublist fs
  length_le : s.findings.length ≤ maxErrors + 1
  nil : s.findings = [] → fs = []
  lines : s.isFull = false →
    ∀ f ∈ fs, ∃ g ∈ s.findings, (s.file.position g.pos).line = (s.file.position f.pos).line

namespace Covers

variable {s t : State} {fs : List Finding}

theorem congr (h : s.Covers fs) (hfile : t.file = s.file) (hall : t.allErrors = s.allErrors)
    (hfindings : t.findings = s.findings) : t.Covers fs where
  allErrors := hall.trans h.allErrors
  sublist := hfindings ▸ h.sublist
  length_le := hfindings ▸ h.length_le
  nil := hfindings ▸ h.nil
  lines := by
    rw [isFull, hfindings, hfile]
    exact h.lines

/-- A fault may be passed over if its line has another one, or if there are too many. -/
theorem passOver (h : s.Covers fs) {f : Finding} (hpass : s.repeatsLine f.pos = true ∨ s.isFull = true) :
    s.Covers (fs ++ [f]) where
  allErrors := h.allErrors
  sublist := h.sublist.trans (List.sublist_append_left fs [f])
  length_le := h.length_le
  nil hnil := by
    rcases hpass with hpass | hpass
    · simp [repeatsLine, hnil] at hpass
    · simp [isFull, hnil] at hpass
  lines hfull g hg := by
    rcases List.mem_append.mp hg with hg | hg
    · exact h.lines hfull g hg
    · obtain rfl := List.mem_singleton.mp hg
      have hline : s.repeatsLine g.pos = true := by simpa [hfull] using hpass
      rw [repeatsLine, Option.any_eq_true] at hline
      obtain ⟨last, hlast, heq⟩ := hline
      exact ⟨last, List.mem_of_getLast? hlast, of_decide_eq_true heq⟩

theorem keep (h : s.Covers fs) (hfull : s.isFull = false) (f : Finding) : (s.keep f).Covers (fs ++ [f]) where
  allErrors := h.allErrors
  sublist := h.sublist.append (List.Sublist.refl [f])
  length_le := by
    have hle : ¬ maxErrors < s.findings.length := of_decide_eq_false hfull
    rw [State.keep, List.length_append, List.length_singleton]
    omega
  nil hnil := absurd hnil (List.concat_ne_nil _ _)
  lines _ g hg := by
    rcases List.mem_append.mp hg with hg | hg
    · obtain ⟨k, hk, hline⟩ := h.lines hfull g hg
      exact ⟨k, List.mem_append_left _ hk, hline⟩
    · exact ⟨g, List.mem_append_right _ hg, rfl⟩

end Covers

variable {s : State} {fs : List Finding}

theorem keepLexical_keepingAll (h : s.Covers fs) (e : LexError) :
    ∃ fs', (s.keepingAll fs).keepLexical e = (s.keepLexical e).keepingAll fs' ∧ (s.keepLexical e).Covers fs' := by
  refine ⟨fs ++ [⟨e.span.start, .lexical e.message⟩], ?_⟩
  rw [keepLexical.eq_def s]
  split
  · next hpass =>
    rw [h.allErrors, Bool.not_false, Bool.true_and, Bool.or_eq_true] at hpass
    exact ⟨rfl, h.passOver hpass⟩
  · next hpass =>
    rw [h.allErrors, Bool.not_false, Bool.true_and, Bool.or_eq_true, not_or, Bool.not_eq_true,
      Bool.not_eq_true] at hpass
    exact ⟨rfl, h.keep hpass.2 _⟩

theorem foldl_keepLexical_keepingAll (es : List LexError) (h : s.Covers fs) :
    ∃ fs', es.foldl keepLexical (s.keepingAll fs) = (es.foldl keepLexical s).keepingAll fs' ∧
      (es.foldl keepLexical s).Covers fs' := by
  induction es generalizing s fs with
  | nil => exact ⟨fs, rfl, h⟩
  | cons e es ih =>
    obtain ⟨gs, hkeep, hgs⟩ := keepLexical_keepingAll h e
    rw [List.foldl_cons, List.foldl_cons, hkeep]
    exact ih hgs

theorem next_keepingAll (h : s.Covers fs) :
    ∃ fs', (s.keepingAll fs).next = s.next.keepingAll fs' ∧ s.next.Covers fs' := by
  have hrest : (s.keepingAll fs).rest = s.rest := rfl
  rw [next.eq_def (s.keepingAll fs), next.eq_def s, hrest]
  split
  · exact ⟨fs, rfl, h⟩
  · next l rest _ =>
    exact foldl_keepLexical_keepingAll l.errors (s := { s with token := l.token, rest }) (h.congr rfl rfl rfl)

theorem stop?_keepingAll (kinds : List Kind) (s : State) (fs : List Finding) :
    (s.keepingAll fs).stop? kinds = (s.stop? kinds).map (·.keepingAll fs) := by
  rw [stop?, stop?]
  by_cases hkind : s.token.kind ∈ kinds
  · by_cases hsame : s.token.pos = s.syncPos ∧ s.syncCount < maxRetries
    · simp [keepingAll, hkind, hsame]
    · by_cases hlater : s.syncPos.index < s.token.pos.index <;> simp [keepingAll, hkind, hsame, hlater]
  · simp [keepingAll, hkind]

theorem Covers.stop {kinds : List Kind} {t : State} (h : s.Covers fs) (hstop : s.stop? kinds = some t) :
    t.Covers fs := by
  obtain ⟨-, ⟨-, -, rfl⟩ | ⟨-, rfl⟩⟩ := stop?_eq_some hstop
  all_goals exact h.congr rfl rfl rfl

theorem skipTo_keepingAll (kinds : List Kind) (h : s.Covers fs) :
    ∃ fs', (s.keepingAll fs).skipTo kinds = (s.skipTo kinds).keepingAll fs' ∧ (s.skipTo kinds).Covers fs' := by
  fun_induction skipTo kinds s generalizing fs with
  | case1 s heof =>
    refine ⟨fs, ?_, h⟩
    rw [skipTo, if_pos (show (s.keepingAll fs).token.kind = .eof from heof)]
  | case2 s heof t hstop =>
    refine ⟨fs, ?_, h.stop hstop⟩
    rw [skipTo, if_neg (show (s.keepingAll fs).token.kind ≠ .eof from heof), stop?_keepingAll, hstop]
    rfl
  | case3 s heof hstop hrest =>
    refine ⟨fs, ?_, h⟩
    rw [skipTo, if_neg (show (s.keepingAll fs).token.kind ≠ .eof from heof), stop?_keepingAll, hstop]
    exact if_pos hrest
  | case4 s heof hstop hrest ih =>
    obtain ⟨gs, hnext, hgs⟩ := next_keepingAll h
    obtain ⟨fs', hskip, hfs'⟩ := ih hgs
    refine ⟨fs', ?_, hfs'⟩
    rw [skipTo, if_neg (show (s.keepingAll fs).token.kind ≠ .eof from heof), stop?_keepingAll, hstop]
    exact (if_neg hrest).trans (hnext ▸ hskip)

end State

open State

/-- A run of `p` that wants every fault gives the same as one that does not, as long as that is not stopped;
if it is, the first one goes on from there. -/
structure Parallel (p : Parser α) : Prop where
  ok {s s' : State} {fs : List Finding} {a : α} : s.Covers fs → p s = .ok a s' →
    ∃ fs', p (s.keepingAll fs) = .ok a (s'.keepingAll fs') ∧ s'.Covers fs'
  error {s s' : State} {fs : List Finding} {e : Stop} : s.Covers fs → p s = .error e s' →
    ∃ fs', Grows (s'.keepingAll fs') (endState p (s.keepingAll fs)) ∧ s'.Covers fs'
  grows : Respects Grows p

namespace Parallel

/-- A step that is never stopped. -/
theorem of_step {p : Parser α} {f : State → α} {g : State → State} (hp : ∀ s, p s = .ok (f s) (g s))
    (hgrows : ∀ s, Grows s (g s)) (hf : ∀ s fs, f (s.keepingAll fs) = f s)
    (hg : ∀ s fs, s.Covers fs → ∃ fs', g (s.keepingAll fs) = (g s).keepingAll fs' ∧ (g s).Covers fs') :
    Parallel p where
  ok {s s' fs a} hs hrun := by
    rw [hp] at hrun
    obtain ⟨rfl, rfl⟩ := EStateM.Result.ok.inj hrun
    obtain ⟨fs', hsame, hcovers⟩ := hg s fs hs
    exact ⟨fs', by rw [hp, hf, hsame], hcovers⟩
  error {s s' fs e} _ hrun := by
    rw [hp] at hrun
    cases hrun
  grows := .of_step fun s => ⟨f s, g s, hp s, hgrows s⟩

/-- A step that keeps no fault. -/
theorem of_silent {p : Parser α} {f : State → α} {g : State → State} (hp : ∀ s, p s = .ok (f s) (g s))
    (hgrows : ∀ s, Grows s (g s)) (hf : ∀ s fs, f (s.keepingAll fs) = f s)
    (hg : ∀ s fs, g (s.keepingAll fs) = (g s).keepingAll fs)
    (hsame : ∀ s, (g s).allErrors = s.allErrors ∧ (g s).findings = s.findings) : Parallel p :=
  of_step hp hgrows hf fun s fs hs => ⟨fs, hg s fs, hs.congr (hgrows s).file (hsame s).1 (hsame s).2⟩

theorem report (pos : Pos) (fault : Fault) : Parallel (report pos fault) where
  ok {s s' fs a} hs hrun := by
    refine ⟨fs ++ [⟨pos, fault⟩], ?_⟩
    rw [Parse.report, get_bind, hs.allErrors] at hrun
    simp only [Bool.false_eq_true, ↓reduceIte] at hrun
    split at hrun
    · next hline =>
      cases hrun
      exact ⟨rfl, hs.passOver (.inl hline)⟩
    · split at hrun
      · cases hrun
      · next hfull =>
        cases hrun
        exact ⟨rfl, hs.keep (Bool.eq_false_iff.mpr hfull) _⟩
  error {s s' fs e} hs hrun := by
    refine ⟨fs, ?_⟩
    rw [Parse.report, get_bind, hs.allErrors] at hrun
    simp only [Bool.false_eq_true, ↓reduceIte] at hrun
    split at hrun
    · cases hrun
    · split at hrun
      · cases hrun
        exact ⟨stepRel_grows.keep (s.keepingAll fs) ⟨pos, fault⟩, hs⟩
      · cases hrun
  grows := stepRel_grows.report pos fault

theorem bind {p : Parser α} {f : α → Parser β} (hp : Parallel p) (hf : ∀ a, Parallel (f a)) :
    Parallel (p >>= f) where
  ok {s s'' fs b} hs hrun := by
    obtain ⟨a, s', hfirst, hrest⟩ := bind_eq_ok.mp hrun
    obtain ⟨gs, hfirst', hgs⟩ := hp.ok hs hfirst
    obtain ⟨fs', hrest', hfs'⟩ := (hf a).ok hgs hrest
    exact ⟨fs', by rw [bind_of_ok hfirst', hrest'], hfs'⟩
  error {s s'' fs e} hs hrun := by
    rcases bind_eq_error.mp hrun with hfirst | ⟨a, s', hfirst, hrest⟩
    · obtain ⟨fs', hgrown, hfs'⟩ := hp.error hs hfirst
      refine ⟨fs', hgrown.trans ?_, hfs'⟩
      -- The run that is not stopped here goes on with `f`.
      rw [endState_bind, endState]
      cases p (s.keepingAll fs) with
      | ok a t => exact (hf a).grows.endState t
      | error e t => exact .refl t
    · obtain ⟨gs, hfirst', hgs⟩ := hp.ok hs hfirst
      obtain ⟨fs', hgrown, hfs'⟩ := (hf a).error hgs hrest
      refine ⟨fs', ?_, hfs'⟩
      rwa [endState_bind, hfirst']
  grows := stepRel_grows.bind hp.grows fun a => (hf a).grows

theorem of_built {p : Parser α} (h : Built p) : Parallel p := by
  induction h with
  | pure a => exact of_silent (fun _ => rfl) .refl (fun _ _ => rfl) (fun _ _ => rfl) fun _ => ⟨rfl, rfl⟩
  | bind _ _ ihp ihf => exact ihp.bind ihf
  | look f h =>
    exact of_silent (fun _ => rfl) .refl (fun s fs => h s true fs) (fun _ _ => rfl) fun _ => ⟨rfl, rfl⟩
  | next => exact of_step (fun _ => rfl) .next (fun _ _ => rfl) fun _ _ => next_keepingAll
  | report pos fault => exact report pos fault
  | skipTo kinds =>
    exact of_step (fun _ => rfl) (stepRel_grows.skipTo kinds) (fun _ _ => rfl) fun _ _ => skipTo_keepingAll kinds
  | setDepth f =>
    exact of_silent (fun _ => rfl) (fun s => stepRel_grows.steer s _ _ _ _) (fun _ _ => rfl) (fun _ _ => rfl)
      fun _ => ⟨rfl, rfl⟩
  | setRhs inRhs =>
    exact of_silent (fun _ => rfl) (fun s => stepRel_grows.steer s _ _ _ _) (fun _ _ => rfl) (fun _ _ => rfl)
      fun _ => ⟨rfl, rfl⟩
  | freshId =>
    exact of_silent (fun _ => rfl) stepRel_grows.number (fun _ _ => rfl) (fun _ _ => rfl) fun _ => ⟨rfl, rfl⟩
  | resolve i =>
    exact of_silent (fun _ => rfl) (stepRel_grows.resolve · i) (fun _ _ => rfl) (fun _ _ => rfl)
      fun _ => ⟨rfl, rfl⟩
  | declareOnly kind decl index name =>
    exact of_silent (fun _ => rfl) (stepRel_grows.declare · name kind decl index) (fun _ _ => rfl)
      (fun _ _ => rfl) fun _ => ⟨rfl, rfl⟩

theorem stmts (n : Nat) : Parallel (stmts n) := by
  induction n with
  | zero => exact of_built (.pure ())
  | succ n ih =>
    refine (of_built .currentKind).bind fun kind => ?_
    split
    · exact of_built (.pure ())
    · refine (of_built .stmt).bind fun st => bind ?_ fun _ => ih
      exact of_silent (fun _ => rfl)
        (fun _ => ⟨rfl, List.prefix_append _ _, List.prefix_rfl, List.prefix_rfl, List.prefix_rfl⟩)
        (fun _ _ => rfl) (fun _ _ => rfl) fun _ => ⟨rfl, rfl⟩

/-- How the two runs end. They differ in the faults alone, unless there were too many. -/
theorem endState {p : Parser α} (hp : Parallel p) {s : State} {fs : List Finding} (hs : s.Covers fs) :
    ∃ fs', (endState p s).Covers fs' ∧
      Grows ((endState p s).keepingAll fs') (endState p (s.keepingAll fs)) ∧
        ((endState p s).isFull = false → endState p (s.keepingAll fs) = (endState p s).keepingAll fs') := by
  cases hrun : p s with
  | ok a s' =>
    obtain ⟨fs', hrun', hfs'⟩ := hp.ok hs hrun
    rw [endState_of_ok hrun, endState_of_ok hrun']
    exact ⟨fs', hfs', .refl _, fun _ => rfl⟩
  | error e s' =>
    obtain ⟨fs', hgrown, hfs'⟩ := hp.error hs hrun
    have hend : Parse.endState p s = s' := by rw [Parse.endState, hrun]
    rw [hend]
    refine ⟨fs', hfs', hgrown, fun hfull => ?_⟩
    rw [hp.grows.isFull hrun] at hfull
    cases hfull

end Parallel

/-! ### Files -/

theorem covers_start (file : SourceFile) (tokens : List Lexeme) :
    (State.start file false tokens).Covers [] where
  allErrors := rfl
  sublist := List.Sublist.refl []
  length_le := Nat.zero_le _
  nil _ := rfl
  lines _ _ h := by cases h

/-- How the two runs over a file end. -/
theorem lastState_keepingAll (file : SourceFile) (source : String) :
    ∃ fs, (lastState file source false).Covers fs ∧
      Grows ((lastState file source false).keepingAll fs) (lastState file source true) ∧
        ((lastState file source false).isFull = false →
          lastState file source true = (lastState file source false).keepingAll fs) := by
  obtain ⟨fs, hnext, hfs⟩ := next_keepingAll (covers_start file (Lexer.ofText source ⟨file.base⟩).lexemes)
  have hstart : (State.start file true (Lexer.ofText source ⟨file.base⟩).lexemes).next = State.keepingAll _ fs := hnext
  have hfirst : firstState file source true = (firstState file source false).keepingAll fs := by
    rw [firstState, hstart]
    rfl
  have hcovers : (firstState file source false).Covers fs := hfs.congr rfl rfl rfl
  by_cases hclean : (firstState file source false).findings = []
  · have hclean' : (firstState file source true).findings = [] := by
      rw [hfirst]
      exact hcovers.nil hclean
    rw [lastState_of_clean hclean, lastState_of_clean hclean', hfirst]
    exact (Parallel.stmts _).endState hcovers
  · have hfaulty : (firstState file source true).findings ≠ [] := by
      rw [hfirst]
      intro hnil
      have hsublist := hcovers.sublist
      rw [show fs = [] from hnil, List.sublist_nil] at hsublist
      exact hclean hsublist
    rw [lastState_of_faulty hclean, lastState_of_faulty hfaulty, hstart]
    exact ⟨fs, hfs, .refl _, fun _ => rfl⟩

theorem length_errors_result (s : State) : s.result.errors.length = s.findings.length := by
  rw [State.result, List.length_mergeSort, List.length_map]

theorem mem_errors_result {s : State} {e : ParseError} :
    e ∈ s.result.errors ↔ ∃ f ∈ s.findings, ParseError.ofFault s.file f.pos f.fault = e := by
  rw [State.result, List.mem_mergeSort, List.mem_map]

/-! Errors are compared by their positions. -/

theorem trans_of_index (a b c : ParseError) (hab : decide (a.pos.index ≤ b.pos.index) = true)
    (hbc : decide (b.pos.index ≤ c.pos.index) = true) : decide (a.pos.index ≤ c.pos.index) = true :=
  decide_eq_true (Nat.le_trans (of_decide_eq_true hab) (of_decide_eq_true hbc))

theorem total_of_index (a b : ParseError) :
    (decide (a.pos.index ≤ b.pos.index) || decide (b.pos.index ≤ a.pos.index)) = true := by
  simpa using Nat.le_total a.pos.index b.pos.index

theorem errors_result_sublist {s t : State} (hfile : t.file = s.file) (h : s.findings.Sublist t.findings) :
    s.result.errors.Sublist t.result.errors := by
  rw [State.result, State.result, hfile]
  exact mergeSort_sublist_mergeSort trans_of_index total_of_index (h.map _)

theorem mem_lines_result {s : State} {line : Nat} :
    line ∈ s.result.errors.map (·.position.line) ↔ ∃ f ∈ s.findings, (s.file.position f.pos).line = line := by
  rw [List.mem_map]
  constructor
  · rintro ⟨e, he, rfl⟩
    obtain ⟨f, hf, rfl⟩ := mem_errors_result.mp he
    exact ⟨f, hf, rfl⟩
  · rintro ⟨f, hf, rfl⟩
    exact ⟨_, mem_errors_result.mpr ⟨f, hf, rfl⟩, rfl⟩

/-- A parse that does not want every fault makes the first part of what one makes that does, and all of it
unless there are more than ten errors. -/
theorem parse_truncated (file : SourceFile) (source : String) :
    let few := file.parse source false
    let every := file.parse source true
    few.file.stmts <+: every.file.stmts ∧ few.objects <+: every.objects ∧
      few.file.unresolved <+: every.file.unresolved ∧ few.errors.Sublist every.errors ∧
      few.errors.length ≤ 11 ∧ (few.errors = [] ↔ every.errors = []) ∧
      (few.errors.length ≤ 10 →
        few.file.stmts = every.file.stmts ∧ few.objects = every.objects ∧
          few.file.unresolved = every.file.unresolved ∧ few.scopes = every.scopes ∧
          ∀ line, line ∈ few.errors.map (·.position.line) ↔ line ∈ every.errors.map (·.position.line)) := by
  let s := lastState file source false
  let t := lastState file source true
  obtain ⟨fs, hfs, hgrows, hsame⟩ : ∃ fs, s.Covers fs ∧ Grows (s.keepingAll fs) t ∧
      (s.isFull = false → t = s.keepingAll fs) := lastState_keepingAll file source
  have hsublist : s.findings.Sublist t.findings := hfs.sublist.trans hgrows.findings.sublist
  have hnotFull : s.findings.length ≤ 10 → s.isFull = false := fun hle => decide_eq_false (Nat.not_lt.mpr hle)
  show s.stmts <+: t.stmts ∧ s.names.objects <+: t.names.objects ∧ s.names.unresolved <+: t.names.unresolved ∧
    s.result.errors.Sublist t.result.errors ∧ s.result.errors.length ≤ 11 ∧
    (s.result.errors = [] ↔ t.result.errors = []) ∧ (s.result.errors.length ≤ 10 → _)
  rw [← List.length_eq_zero_iff, ← List.length_eq_zero_iff, length_errors_result, length_errors_result]
  refine ⟨hgrows.stmts, hgrows.objects, hgrows.unresolved, errors_result_sublist hgrows.file hsublist,
    hfs.length_le, ⟨fun hnone => ?_, fun hnone => ?_⟩, fun hle => ?_⟩
  · rw [hsame (hnotFull (by omega))]
    exact List.length_eq_zero_iff.mpr (hfs.nil (List.length_eq_zero_iff.mp hnone))
  · have := hsublist.length_le
    omega
  · have ht := hsame (hnotFull hle)
    have hlines := hfs.lines (hnotFull hle)
    show s.stmts = t.stmts ∧ s.names.objects = t.names.objects ∧ s.names.unresolved = t.names.unresolved ∧
      s.names.closeScope.scopes = t.names.closeScope.scopes ∧
      ∀ line, line ∈ s.result.errors.map (·.position.line) ↔ line ∈ t.result.errors.map (·.position.line)
    rw [ht]
    refine ⟨rfl, rfl, rfl, rfl, fun line => ?_⟩
    rw [mem_lines_result, mem_lines_result]
    constructor
    · rintro ⟨f, hf, hline⟩
      exact ⟨f, hfs.sublist.subset hf, hline⟩
    · rintro ⟨f, hf, rfl⟩
      exact hlines f hf

theorem parse_truncated_sameLine :
    let file : SourceFile := ⟨"", 1, 5, .ofText "x y z"⟩
    (file.parse "x y z" false).errors.length = 1 ∧ (file.parse "x y z" true).errors.length = 2 ∧
      (file.parse "x y z" false).file.stmts = (file.parse "x y z" true).file.stmts := by
  intro file
  have hfew : (file.parse "x y z" false).errors.length = 1 := by
    rw [SourceFile.parse, length_errors_result]
    decide +kernel
  have hall : (file.parse "x y z" true).errors.length = 2 := by
    rw [SourceFile.parse, length_errors_result]
    decide +kernel
  obtain ⟨-, -, -, -, -, -, hsame⟩ := parse_truncated file "x y z"
  exact ⟨hfew, hall, (hsame (by rw [hfew]; decide)).1⟩

end Parse

end RoseLang
