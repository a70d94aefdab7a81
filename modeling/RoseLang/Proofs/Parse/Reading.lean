import RoseLang.Proofs.Parse.Grouping
import RoseLang.Proofs.Scope.Declarations
import RoseLang.Proofs.Syntax.Marks

/-!
# Reading without a fault

What happens in a parse as long as nothing is reported. `Reads` says which tokens are read from one state
to another and what stays the same meanwhile; it is stated for single steps and composed. As no step
takes a fault back, a parse that ends with none has had none at any time: each of its steps has gone the
way that reports nothing.
-/

namespace RoseLang.Parse

variable {α β : Type}

/-- No fault has been kept, and none will be met while the tokens to come are read. -/
def State.Quiet (s : State) : Prop := s.findings = [] ∧ ∀ l ∈ s.rest, l.errors = []

/-- The tokens `ts` are read from `s` to `s'`, where the expression is as deep and on the same side and
the same names are known. -/
structure Reads (s : State) (ts : List Token) (s' : State) : Prop where
  tokens : s.tokens = ts ++ s'.tokens
  quiet : s.Quiet → s'.Quiet
  scopes : s'.names.scopes = s.names.scopes
  depth : s'.depth = s.depth
  inRhs : s'.inRhs = s.inRhs

namespace Reads

variable {s t u : State} {ts us : List Token}

theorem refl (s : State) : Reads s [] s := ⟨rfl, id, rfl, rfl, rfl⟩

theorem trans (h : Reads s ts t) (h' : Reads t us u) : Reads s (ts ++ us) u where
  tokens := by rw [h.tokens, h'.tokens, List.append_assoc]
  quiet hs := h'.quiet (h.quiet hs)
  scopes := h'.scopes.trans h.scopes
  depth := h'.depth.trans h.depth
  inRhs := h'.inRhs.trans h.inRhs

theorem suffix (h : Reads s ts t) : t.tokens <:+ s.tokens := ⟨ts, h.tokens.symm⟩

theorem terminated (h : Reads s ts t) (hs : s.Terminated) : t.Terminated :=
  EndsOnce.of_suffix hs h.suffix t.tokens_ne_nil

/-- What is left of tokens that are known is known. -/
theorem tokens_eq {vs : List Token} (h : Reads s ts t) (hs : s.tokens = ts ++ vs) : t.tokens = vs :=
  List.append_cancel_left (h.tokens.symm.trans hs)

end Reads

namespace State

theorem Quiet.next {s : State} (h : s.Quiet) : s.next.Quiet := by
  obtain ⟨hfindings, hrest⟩ := h
  refine ⟨?_, fun l hl => hrest l ?_⟩
  · rw [State.next]
    split
    · exact hfindings
    · next l ls heq =>
      rw [hrest l (heq ▸ List.mem_cons_self)]
      exact hfindings
  · rw [rest_next] at hl
    exact List.mem_of_mem_tail hl

end State

theorem Reads.next {s : State} (hs : s.Terminated) (hkind : s.token.kind ≠ .eof) :
    Reads s [s.token] s.next := by
  obtain ⟨findings, hnext⟩ := s.next_eq
  refine ⟨hs.tokens_next hkind, .next, ?_, ?_, ?_⟩
  all_goals rw [hnext]

/-! ### Ends without a fault -/

theorem Extends.clean {s s' : State} (h : Extends s s') (hclean : s'.findings = []) : s.findings = [] :=
  List.prefix_nil.mp (hclean ▸ h.findings)

theorem not_clean_of_report {pos : Pos} {fault : Fault} {s s' : State}
    (h : report pos fault s = .ok () s') : s'.findings ≠ [] := by
  rcases report_eq_ok h with rfl | ⟨rfl, hne⟩
  · exact List.concat_ne_nil _ _
  · exact hne

theorem not_clean_of_expected {what : Expectation} {s s' : State} (h : expected what s = .ok () s') :
    s'.findings ≠ [] := by
  rw [expected, currentToken_bind] at h
  exact not_clean_of_report h

theorem not_clean_of_skipped {kinds : List Kind} {complaint : Parser Unit} {s s' : State} {span : Span}
    (hcomplaint : ∀ t t', complaint t = .ok () t' → t'.findings ≠ [])
    (h : skipped kinds complaint s = .ok span s') : s'.findings ≠ [] := by
  rw [skipped, currentPos_bind] at h
  obtain ⟨_, t, ht, h⟩ := bind_eq_ok.mp h
  rw [skipTo_bind, currentPos_bind, pure_eq_ok] at h
  obtain ⟨rfl, rfl⟩ := h
  intro hclean
  have hskip : Extends t (t.skipTo kinds) := stepRel_extends.skipTo kinds t
  exact hcomplaint s t ht (hskip.clean hclean)

theorem not_clean_of_skippedExpr {kinds : List Kind} {complaint : Parser Unit} {s s' : State} {e : Expr}
    (hcomplaint : ∀ t t', complaint t = .ok () t' → t'.findings ≠ [])
    (h : skippedExpr kinds complaint s = .ok e s') : s'.findings ≠ [] := by
  obtain ⟨span, t, hspan, h⟩ := bind_eq_ok.mp h
  rw [freshId_bind, pure_eq_ok] at h
  obtain ⟨-, rfl⟩ := h
  exact (not_clean_of_skipped hcomplaint hspan : t.findings ≠ [])

theorem not_clean_of_tooDeep {s s' : State} {e : Expr} (h : tooDeep s = .ok e s') : s'.findings ≠ [] := by
  refine not_clean_of_skippedExpr (fun t t' ht => ?_) h
  rw [currentPos_bind] at ht
  exact not_clean_of_report ht

section
variable {s s' : State} (hclean : s'.findings = [])
include hclean

theorem reportAny_clean {fault : Option (Pos × Fault)} (h : reportAny fault s = .ok () s') :
    fault = none ∧ s' = s := by
  cases fault with
  | none =>
    obtain ⟨-, rfl⟩ := pure_eq_ok.mp h
    exact ⟨rfl, rfl⟩
  | some fault => exact absurd hclean (not_clean_of_report h)

theorem expect_clean {kind : Kind} {pos : Pos} (h : expect kind s = .ok pos s') :
    s.token.kind = kind ∧ pos = s.token.pos ∧ s' = s.next := by
  rw [expect, currentPos_bind] at h
  obtain ⟨_, t, hrequire, h⟩ := bind_eq_ok.mp h
  rw [next_bind, pure_eq_ok] at h
  obtain ⟨rfl, rfl⟩ := h
  rw [require, currentKind_bind] at hrequire
  split at hrequire
  · next hkind =>
    obtain ⟨-, rfl⟩ := pure_eq_ok.mp hrequire
    exact ⟨hkind, rfl, rfl⟩
  · exact absurd ((Extends.next t).clean hclean) (not_clean_of_expected hrequire)

/-- The terminator is there, or need not be. -/
theorem expectSemi_clean (h : expectSemi s = .ok () s') :
    s.token.kind = .semi ∧ s' = s.next ∨ (s.token.kind = .rparen ∨ s.token.kind = .rbrace) ∧ s' = s := by
  by_cases hsemi : s.token.kind = .semi
  · rw [expectSemi_of_semi hsemi] at h
    cases h
    exact .inl ⟨hsemi, rfl⟩
  · by_cases hclose : s.token.kind = .rparen ∨ s.token.kind = .rbrace
    · rw [expectSemi_of_close hclose] at h
      cases h
      exact .inr ⟨hclose, rfl⟩
    · rw [expectSemi_of_other hsemi hclose] at h
      exact absurd hclean (not_clean_of_expected h)

theorem ident_clean {i : Ident} (h : ident s = .ok i s') :
    s.token.kind = .ident ∧ i = ⟨s.next.nextId, s.token.pos, s.token.text, .unbound⟩ ∧
      s' = { s.next with nextId := s.next.nextId + 1 } := by
  rw [ident, currentToken_bind] at h
  split at h
  · next hkind =>
    rw [next_bind, freshId_bind, pure_eq_ok] at h
    obtain ⟨rfl, rfl⟩ := h
    exact ⟨hkind, rfl, rfl⟩
  · next hkind =>
    obtain ⟨pos, t, hexpect, h⟩ := bind_eq_ok.mp h
    rw [freshId_bind, pure_eq_ok] at h
    obtain ⟨rfl, rfl⟩ := h
    have ht : t.findings = [] := hclean
    exact absurd (expect_clean ht hexpect).1 hkind

end

/-- If no fault has been kept by `s'`, then none by `s`, and none was met on the way. -/
def Faultless (s s' : State) : Prop :=
  s'.findings = [] → s.findings = [] ∧ ∃ ls, s.rest = ls ++ s'.rest ∧ ∀ l ∈ ls, l.errors = []

theorem Faultless.of_same {s s' : State} (hfindings : s'.findings = s.findings) (hrest : s'.rest = s.rest) :
    Faultless s s' := fun hclean => ⟨hfindings.symm.trans hclean, [], hrest.symm, by simp⟩

/-- The first fault met while a token is read is kept. -/
theorem faultless_next (s : State) : Faultless s s.next := by
  intro hclean
  have hfindings := (Extends.next s).clean hclean
  cases hrest : s.rest with
  | nil =>
    rw [State.next_of_nil hrest]
    exact ⟨hfindings, [], by rw [hrest, List.append_nil], by simp⟩
  | cons l ls =>
    refine ⟨hfindings, [l], by rw [State.rest_next, hrest]; rfl, List.forall_mem_singleton.mpr ?_⟩
    cases herrors : l.errors with
    | nil => rfl
    | cons e es =>
      have hnext : s.next =
          es.foldl State.keepLexical (State.keepLexical { s with token := l.token, rest := ls } e) := by
        rw [State.next]
        simp only [hrest, herrors, List.foldl_cons]
      have hkept := (Extends.foldl_keepLexical es
        (State.keepLexical { s with token := l.token, rest := ls } e)).clean (hnext ▸ hclean)
      simp [State.keepLexical, State.repeatsLine, State.isFull, hfindings, State.keep] at hkept

theorem stepRel_faultless : StepRel Faultless where
  refl _ := .of_same rfl rfl
  trans h h' hclean := by
    obtain ⟨ht, us, hus, hfaultless⟩ := h' hclean
    obtain ⟨hs, ts, hts, hfaultless'⟩ := h ht
    refine ⟨hs, ts ++ us, by rw [hts, hus, List.append_assoc], fun l hl => ?_⟩
    rcases List.mem_append.mp hl with hl | hl
    · exact hfaultless' l hl
    · exact hfaultless l hl
  next := faultless_next
  keep _ _ hclean := absurd hclean (List.concat_ne_nil _ _)
  steer _ _ _ _ _ := .of_same rfl rfl
  number _ := .of_same rfl rfl
  resolve _ _ := .of_same rfl rfl
  declare _ _ _ _ _ := .of_same rfl rfl

theorem stmts_faultless (n : Nat) : Respects Faultless (stmts n) :=
  stepRel_faultless.stmts (fun _ _ => .of_same rfl rfl) n

/-- The first token is faulty exactly if a fault is met where the parse starts. -/
theorem findings_firstState {file : SourceFile} {source : String} {allErrors : Bool} :
    (firstState file source allErrors).findings = [] ↔
      ∀ l ∈ (Lexer.ofText source ⟨file.base⟩).lexemes.head?, l.errors = [] := by
  show (State.start file allErrors (Lexer.ofText source ⟨file.base⟩).lexemes).next.findings = [] ↔ _
  generalize (Lexer.ofText source ⟨file.base⟩).lexemes = tokens
  cases tokens with
  | nil => exact ⟨fun _ => by simp, fun _ => rfl⟩
  | cons l ls =>
    constructor
    · intro hnone m hm
      obtain ⟨-, ms, hrest, hclean⟩ := faultless_next _ hnone
      rw [State.rest_next] at hrest
      have hsplit : [l] ++ ls = ms ++ ls := hrest
      obtain rfl := (List.append_cancel_right hsplit).symm
      cases hm
      exact hclean l List.mem_cons_self
    · intro hclean
      show (l.errors.foldl State.keepLexical _).findings = []
      rw [hclean l rfl]
      rfl

/-! ### Names that are looked up -/

/-- A lookup only changes what a name is bound to. -/
theorem resolveExpr_reads {e e' : Expr} {s s' : State} (h : resolveExpr e s = .ok e' s') :
    Reads s [] s' ∧
      (e' = e ∨ ∃ id i binding, e = .ident id i ∧ e' = .ident id { i with binding }) := by
  cases e with
  | ident id i =>
    rw [resolveExpr, resolve_bind, pure_eq_ok] at h
    obtain ⟨rfl, rfl⟩ := h
    obtain ⟨binding, hi⟩ := s.names.ident_resolve i true
    exact ⟨⟨rfl, fun hs => hs, s.names.scopes_resolve i true, rfl, rfl⟩,
      .inr ⟨id, i, binding, rfl, congrArg _ hi⟩⟩
  | _ =>
    rw [resolveExpr, pure_eq_ok] at h
    · obtain ⟨rfl, rfl⟩ := h
      exact ⟨.refl s, .inl rfl⟩
    · exact fun _ _ h => by cases h

/-! ### Declarations -/

/-- The tokens `ts` are read from `s` to `s'`, and the specs `xs` are declared meanwhile. They are
admissible where the names known in `s` have been declared. -/
structure Makes (s : State) (ts : List Token) (xs : List Entry) (s' : State) : Prop where
  tokens : s.tokens = ts ++ s'.tokens
  quiet : s.Quiet → s'.Quiet
  depth : s'.depth = s.depth
  inRhs : s'.inRhs = s.inRhs
  declares {declared : List String} : s.names.Declares declared →
    AllAdmissible declared xs ∧ s'.names.Declares (declared ++ declaredIn xs)

namespace Makes

variable {s t u : State} {ts us : List Token} {xs ys : List Entry}

theorem trans (h : Makes s ts xs t) (h' : Makes t us ys u) : Makes s (ts ++ us) (xs ++ ys) u where
  tokens := by rw [h.tokens, h'.tokens, List.append_assoc]
  quiet hs := h'.quiet (h.quiet hs)
  depth := h'.depth.trans h.depth
  inRhs := h'.inRhs.trans h.inRhs
  declares hdeclared := by
    obtain ⟨hxs, ht⟩ := h.declares hdeclared
    obtain ⟨hys, hu⟩ := h'.declares ht
    refine ⟨allAdmissible_append.mpr ⟨hxs, hys⟩, ?_⟩
    rwa [declaredIn, List.flatMap_append, ← List.append_assoc]

theorem suffix (h : Makes s ts xs t) : t.tokens <:+ s.tokens := ⟨ts, h.tokens.symm⟩

theorem terminated (h : Makes s ts xs t) (hs : s.Terminated) : t.Terminated :=
  EndsOnce.of_suffix hs h.suffix t.tokens_ne_nil

theorem tokens_eq {vs : List Token} (h : Makes s ts xs t) (hs : s.tokens = ts ++ vs) : t.tokens = vs :=
  List.append_cancel_left (h.tokens.symm.trans hs)

end Makes

theorem Reads.makes {s t : State} {ts : List Token} (h : Reads s ts t) : Makes s ts [] t where
  tokens := h.tokens
  quiet := h.quiet
  depth := h.depth
  inRhs := h.inRhs
  declares hdeclared := ⟨trivial, by simpa [declaredIn] using hdeclared.congr h.scopes⟩

end RoseLang.Parse
