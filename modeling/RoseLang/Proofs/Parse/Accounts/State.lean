import RoseLang.Proofs.Parse.Ledger

/-!
# Accounts of a parse

A parse that wants every fault keeps its accounts: the faults of the tokens are kept one by one as the tokens are
read, and no others of that kind, what a fault says of a token is so, and each placeholder that has been made has
a syntax fault of its own where it starts. `Accounted` says so of a state, and is a ledger of the placeholders.
-/

namespace RoseLang.Parse

/-- The accounts of a parse over the lexemes `ls` by which the placeholders `bad` have been made. -/
structure Accounted (ls : List Lexeme) (bad : List Pos) (s : State) : Prop where
  allErrors : s.allErrors = true
  tokens : s.tokens <:+ ls.map Lexeme.token
  lexical : Parse.lexical s.findings ++ lexicalOf s.rest = lexicalOf ls
  founded : ∀ f ∈ s.findings, Founded ls f.pos f.fault
  bad : bad.Sublist (syntacticPositions s.findings)

variable {ls : List Lexeme} {given : List Pos} {s t : State}

namespace Accounted

/-- Only what steers the parse is changed. -/
theorem of_same (h : Accounted ls given s) (hall : t.allErrors = s.allErrors) (htoken : t.token = s.token)
    (hrest : t.rest = s.rest) (hfindings : t.findings = s.findings) : Accounted ls given t where
  allErrors := hall.trans h.allErrors
  tokens := by rw [State.tokens, htoken, hrest]; exact h.tokens
  lexical := by rw [hfindings, hrest]; exact h.lexical
  founded := hfindings ▸ h.founded
  bad := hfindings ▸ h.bad

theorem keep (h : Accounted ls given s) {pos : Pos} {fault : Fault} (hreport : Reportable ls (pos, fault)) :
    Accounted ls (given ++ Walk.placeholders.fault pos fault) (s.keep ⟨pos, fault⟩) where
  allErrors := h.allErrors
  tokens := h.tokens
  lexical := by
    have hnone : Parse.lexical [⟨pos, fault⟩] = [] := List.filter_cons_of_neg (by simpa using hreport.kind_ne)
    show Parse.lexical (s.findings ++ [⟨pos, fault⟩]) ++ lexicalOf s.rest = lexicalOf ls
    rw [lexical_append, hnone, List.append_nil, h.lexical]
  founded f hf := by
    rcases List.mem_append.mp hf with hf | hf
    · exact h.founded f hf
    · obtain rfl := List.mem_singleton.mp hf
      exact hreport.founded
  bad := by
    have hsame : Walk.placeholders.fault pos fault = syntacticPositions [⟨pos, fault⟩] := by
      rw [Walk.fault, syntacticPositions, List.filter_singleton]
      by_cases hkind : fault.kind = .syntactic <;> simp [hkind, Walk.placeholders]
    show (given ++ _).Sublist (syntacticPositions (s.findings ++ [⟨pos, fault⟩]))
    rw [syntacticPositions_append, hsame]
    exact h.bad.append (List.Sublist.refl _)

theorem next (h : Accounted ls given s) : Accounted ls given s.next := by
  cases hrest : s.rest with
  | nil =>
    rw [State.next_of_nil hrest]
    exact h
  | cons l rest =>
    have htokens := s.tokens_next_suffix.trans h.tokens
    rw [State.next_of_allErrors h.allErrors hrest] at htokens ⊢
    refine ⟨h.allErrors, htokens, ?_, fun f hf => ?_, ?_⟩
    · have hlexical := h.lexical
      rw [hrest, lexicalOf_cons, ← List.append_assoc] at hlexical
      rw [lexical_append, lexical_lexicalOf]
      exact hlexical
    · rcases List.mem_append.mp hf with hf | hf
      · exact h.founded f hf
      · have hmem : f ∈ lexicalOf ls := by
          rw [← h.lexical, hrest, lexicalOf_cons]
          exact List.mem_append_right _ (List.mem_append_left _ hf)
        obtain ⟨e, -, rfl⟩ := List.mem_map.mp hf
        exact .lexical hmem
    · rw [syntacticPositions_append]
      exact h.bad.trans (List.sublist_append_left _ _)

end Accounted

theorem accounted_ledger (ls : List Lexeme) : Ledger ls .placeholders (Accounted ls) where
  tokens h := h.tokens
  fewer h hkept := { h with bad := hkept.trans h.bad }
  next h := h.next
  steer _ _ _ _ _ _ h := h.of_same rfl rfl rfl rfl
  number h := by
    rw [show Walk.placeholders.number _ = [] from rfl, List.append_nil]
    exact h.of_same rfl rfl rfl rfl
  report h hreport hrun := by
    rw [report, get_bind, if_pos h.allErrors] at hrun
    cases hrun
    exact h.keep hreport

end RoseLang.Parse
