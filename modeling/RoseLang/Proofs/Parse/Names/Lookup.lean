import RoseLang.Proofs.Parse.Reading
import RoseLang.Proofs.Parse.Truncation
import RoseLang.Proofs.Scope.Complaints
import RoseLang.Proofs.Scope.Uses

/-!
# Names looked up during a parse

`LooksUp` says which identifiers are looked up from one state to another, as long as nothing is declared.
Most parsers look nothing up; these are `Idle`, which is kept by composition, and says as well that they
report nothing about declarations. In contrast to `Reads`, all this holds of malformed texts too.
-/

namespace RoseLang.Parse

variable {α β : Type}

/-- The faults that have to do with declarations. -/
def semantic (fs : List Finding) : List Finding := fs.filter fun f => f.fault.kind = .semantic

theorem semantic_append (fs gs : List Finding) : semantic (fs ++ gs) = semantic fs ++ semantic gs :=
  List.filter_append _ _

/-- From `s` to `s'` the identifiers of `us` are looked up, in this order, and nothing is declared. If every
fault is wanted, then `fs` are those reported on the way that have to do with declarations. -/
structure LooksUp (s : State) (us : List Use) (fs : List Finding) (s' : State) : Prop where
  bound : ∀ u ∈ us, u.ident.binding = u.bindingBy s.names.scopes.lookup
  scopes : s'.names.scopes = s.names.scopes
  objects : s'.names.objects = s.names.objects
  unresolved : s'.names.unresolved = s.names.unresolved ++ unresolvedIn us
  allErrors : s'.allErrors = s.allErrors
  semantic : s.allErrors = true → Parse.semantic s'.findings = Parse.semantic s.findings ++ fs
  clean : s'.findings = [] → s.findings = []
  nextId_le : s.nextId ≤ s'.nextId

namespace LooksUp

variable {s t u : State} {us vs : List Use} {fs gs : List Finding}

/-- Only what steers the parse is changed, and the numbers may go up. -/
theorem of_same (hnames : t.names = s.names) (hall : t.allErrors = s.allErrors)
    (hfindings : t.findings = s.findings) (hle : s.nextId ≤ t.nextId) : LooksUp s [] [] t where
  bound := by simp
  scopes := by rw [hnames]
  objects := by rw [hnames]
  unresolved := by simp [hnames, unresolvedIn]
  allErrors := hall
  semantic _ := by rw [hfindings, List.append_nil]
  clean hclean := hfindings ▸ hclean
  nextId_le := hle

theorem refl (s : State) : LooksUp s [] [] s := of_same rfl rfl rfl (Nat.le_refl _)

theorem trans (h : LooksUp s us fs t) (h' : LooksUp t vs gs u) : LooksUp s (us ++ vs) (fs ++ gs) u where
  bound v hv := by
    rcases List.mem_append.mp hv with hv | hv
    · exact h.bound v hv
    · exact h.scopes ▸ h'.bound v hv
  scopes := h'.scopes.trans h.scopes
  objects := h'.objects.trans h.objects
  unresolved := by
    rw [h'.unresolved, h.unresolved, unresolvedIn_append, List.append_assoc]
  allErrors := h'.allErrors.trans h.allErrors
  semantic hall := by
    rw [h'.semantic (h.allErrors.trans hall), h.semantic hall, List.append_assoc]
  clean hclean := h.clean (h'.clean hclean)
  nextId_le := Nat.le_trans h.nextId_le h'.nextId_le

/-- Nothing more is looked up afterwards. -/
theorem before (h : LooksUp s us fs t) (h' : LooksUp t [] [] u) : LooksUp s us fs u := by
  simpa using h.trans h'

theorem keep (s : State) (finding : Finding) : LooksUp s [] (Parse.semantic [finding]) (s.keep finding) where
  bound := by simp
  scopes := rfl
  objects := rfl
  unresolved := by simp [unresolvedIn, State.keep]
  allErrors := rfl
  semantic _ := semantic_append _ _
  clean hclean := absurd hclean (List.concat_ne_nil _ _)
  nextId_le := Nat.le_refl _

theorem keepLexical (s : State) (e : LexError) : LooksUp s [] [] (s.keepLexical e) := by
  rw [State.keepLexical]
  split
  · exact .refl s
  · exact .keep s ⟨e.span.start, .lexical e.message⟩

theorem next (s : State) : LooksUp s [] [] s.next := by
  have hfold : ∀ (es : List LexError) (t : State), LooksUp t [] [] (es.foldl State.keepLexical t) := by
    intro es
    induction es with
    | nil => exact .refl
    | cons e es ih => exact fun t => (LooksUp.keepLexical t e).trans (ih _)
  rw [State.next]
  split
  · exact .refl s
  · next l rest _ =>
    have hread : LooksUp s [] [] { s with token := l.token, rest } := .of_same rfl rfl rfl (Nat.le_refl _)
    exact hread.trans (hfold _ _)

theorem freshId (s : State) : LooksUp s [] [] { s with nextId := s.nextId + 1 } :=
  .of_same rfl rfl rfl (Nat.le_succ _)

theorem skipTo (kinds : List Kind) (s : State) : LooksUp s [] [] (s.skipTo kinds) := by
  fun_induction State.skipTo kinds s with
  | case1 s heof => exact .refl s
  | case2 s heof s' hstop =>
    obtain ⟨-, ⟨-, -, rfl⟩ | ⟨-, rfl⟩⟩ := State.stop?_eq_some hstop
    all_goals exact .of_same rfl rfl rfl (Nat.le_refl _)
  | case3 s heof hstop hrest => exact .refl s
  | case4 s heof hstop hrest ih => exact (LooksUp.next s).trans ih

theorem report {pos : Pos} {fault : Fault} (h : report pos fault s = .ok () t) :
    LooksUp s [] (Parse.semantic [⟨pos, fault⟩]) t := by
  rw [Parse.report, get_bind] at h
  split at h
  · cases h
    exact .keep s _
  · next hall =>
    split at h
    · cases h
      exact ⟨by simp, rfl, rfl, by simp [unresolvedIn], rfl, fun h => absurd h hall, id, Nat.le_refl _⟩
    · split at h
      · cases h
      · cases h
        exact .keep s _

theorem reportAny {fault : Option (Pos × Fault)} (h : reportAny fault s = .ok () t) :
    LooksUp s [] (Parse.semantic (fault.map fun f => ⟨f.1, f.2⟩).toList) t := by
  cases fault with
  | none =>
    obtain ⟨-, rfl⟩ := pure_eq_ok.mp h
    exact .refl s
  | some f => exact .report h

/-- An identifier is looked up, unless it stands for a built-in type. -/
theorem resolve (s : State) {i : Ident} (inType : Bool) (hunbound : i.binding = .unbound)
    (hplain : ¬ (inType = true ∧ i.name ∈ builtinTypes)) :
    LooksUp s [⟨(s.names.resolve i true).1, inType⟩] []
      { s with names := (s.names.resolve i true).2.2 } where
  bound u hu := by
    obtain rfl := List.mem_singleton.mp hu
    rw [Resolver.resolve]
    by_cases hblank : i.name = Ident.blank
    · simp [Ident.isBlank, Use.bindingBy, Use.IsLookedUp, hblank, hunbound]
    · cases hlookup : s.names.scopes.lookup i.name with
      | some object => simp [Ident.isBlank, Use.bindingBy, Use.IsLookedUp, hblank, hlookup, hplain]
      | none => simp [Ident.isBlank, Use.bindingBy, Use.IsLookedUp, hblank, hlookup, hplain]
  scopes := s.names.scopes_resolve i true
  objects := objects_resolve s.names i
  unresolved := by
    dsimp only
    rw [Resolver.resolve]
    by_cases hblank : i.name = Ident.blank
    · simp [Ident.isBlank, hblank, unresolvedIn, hunbound]
    · cases s.names.scopes.lookup i.name with
      | some object => simp [Ident.isBlank, hblank, unresolvedIn]
      | none => simp [Ident.isBlank, hblank, unresolvedIn]
  allErrors := rfl
  semantic _ := (List.append_nil _).symm
  clean := id
  nextId_le := Nat.le_refl _

/-- A built-in type is not looked up. -/
theorem builtin (s : State) {i : Ident} (hunbound : i.binding = .unbound) (hmem : i.name ∈ builtinTypes) :
    LooksUp s [⟨i, true⟩] [] s where
  bound u hu := by
    obtain rfl := List.mem_singleton.mp hu
    simp [Use.bindingBy, Use.IsLookedUp, hunbound, hmem]
  scopes := rfl
  objects := rfl
  unresolved := by simp [unresolvedIn, hunbound]
  allErrors := rfl
  semantic _ := (List.append_nil _).symm
  clean := id
  nextId_le := Nat.le_refl _

end LooksUp

/-! ### Parsers that look nothing up -/

def Idle (p : Parser α) : Prop := ∀ s a s', p s = .ok a s' → LooksUp s [] [] s'

namespace Idle

theorem pure (a : α) : Idle (Pure.pure a) := by
  intro s b s' h
  obtain ⟨-, rfl⟩ := pure_eq_ok.mp h
  exact .refl s

theorem bind {p : Parser α} {f : α → Parser β} (hp : Idle p) (hf : ∀ a, Idle (f a)) : Idle (p >>= f) := by
  intro s b s'' h
  obtain ⟨a, s', ha, h⟩ := bind_eq_ok.mp h
  exact (hp s a s' ha).trans (hf a s' b s'' h)

theorem of_step {p : Parser α} {f : State → α} {g : State → State} (hp : ∀ s, p s = .ok (f s) (g s))
    (hg : ∀ s, LooksUp s [] [] (g s)) : Idle p := by
  intro s a s' h
  rw [hp] at h
  cases h
  exact hg s

theorem currentToken : Idle currentToken := of_step (fun _ => rfl) .refl

theorem currentKind : Idle currentKind := of_step (fun _ => rfl) .refl

theorem currentPos : Idle currentPos := of_step (fun _ => rfl) .refl

theorem next : Idle next := of_step (fun _ => rfl) .next

theorem freshId : Idle freshId := of_step (fun _ => rfl) .freshId

theorem report (pos : Pos) {fault : Fault} (h : fault.kind ≠ .semantic) : Idle (report pos fault) := by
  intro s _ s' hrun
  have hreport := LooksUp.report hrun
  rwa [semantic, List.filter_cons_of_neg (by simpa using h)] at hreport

theorem expected (what : Expectation) : Idle (expected what) :=
  .bind .currentToken fun _ => .report _ (by simp [Fault.kind])

theorem require (kind : Kind) : Idle (require kind) := by
  refine .bind .currentKind fun found => ?_
  split
  · exact .pure ()
  · exact .expected _

theorem expect (kind : Kind) : Idle (expect kind) :=
  .bind .currentPos fun pos => .bind (.require kind) fun _ => .bind .next fun _ => .pure pos

theorem expectSemi : Idle expectSemi := by
  refine .bind .currentKind fun found => ?_
  split
  · exact .pure ()
  · exact .pure ()
  · exact .next
  · exact .expected _

theorem skipped (kinds : List Kind) {complaint : Parser Unit} (h : Idle complaint) :
    Idle (skipped kinds complaint) :=
  .bind .currentPos fun _ => .bind h fun _ =>
    .bind (of_step (fun _ => rfl) (.skipTo kinds)) fun _ => .bind .currentPos fun _ => .pure _

theorem skippedExpr (kinds : List Kind) {complaint : Parser Unit} (h : Idle complaint) :
    Idle (skippedExpr kinds complaint) :=
  .bind (.skipped kinds h) fun _ => .bind .freshId fun _ => .pure _

theorem tooDeep : Idle tooDeep :=
  .skippedExpr _ (.bind .currentPos fun _ => .report _ (by simp [Fault.kind]))

theorem ident : Idle ident := by
  refine .bind .currentToken fun t => ?_
  split
  · exact .bind .next fun _ => .bind .freshId fun _ => .pure _
  · exact .bind (.expect _) fun _ => .bind .freshId fun _ => .pure _

theorem commaRuns {item : Parser α} (hitem : Idle item) {n : Nat} {s s' : State} {as : List α}
    (h : CommaRuns item n s as s') : LooksUp s [] [] s' := by
  induction h with
  | full | stop => exact .refl _
  | more hcomma hfirst hrest ih => exact (LooksUp.next _).trans ((hitem _ _ _ hfirst).trans ih)

theorem nameList : Idle nameList := by
  intro s names s' h
  obtain ⟨first, others, -, hlist⟩ := nameList_eq_ok.mp h
  obtain ⟨t, hfirst, hothers⟩ := commaList_eq_ok.mp hlist
  exact (Idle.ident _ _ _ hfirst).trans (commaRuns .ident hothers)

end Idle

end RoseLang.Parse
