import RoseLang.Token.Lexer

/-!
# The tokens of a text as a whole

The end token comes last and only there, and tokens of a text that has positions have valid ones.
-/

namespace RoseLang

/-- The last token is the end token, and no other one is. -/
def EndsOnce (ts : List Token) : Prop :=
  ∃ us t, ts = us ++ [t] ∧ t.kind = .eof ∧ ∀ u ∈ us, u.kind ≠ .eof

theorem EndsOnce.of_suffix {ts us : List Token} (h : EndsOnce ts) (hsuffix : us <:+ ts) (hne : us ≠ []) :
    EndsOnce us := by
  obtain ⟨ws, t, rfl, ht, hws⟩ := h
  obtain ⟨vs, hvs⟩ := hsuffix
  obtain ⟨us', u, rfl⟩ : ∃ us' u, us = us' ++ [u] :=
    ⟨_, _, (List.dropLast_concat_getLast hne).symm⟩
  rw [← List.append_assoc] at hvs
  obtain ⟨hinit, hlast⟩ := List.append_inj' hvs rfl
  obtain rfl := List.singleton_inj.mp hlast
  refine ⟨us', u, rfl, ht, fun v hv => hws v ?_⟩
  rw [← hinit]
  exact List.mem_append_right vs hv

theorem Lexer.endsOnce_lexemes (l : Lexer) : EndsOnce (l.lexemes.map Lexeme.token) := by
  fun_induction Lexer.lexemes l with
  | case1 l heof => exact ⟨[], _, rfl, heof, by simp⟩
  | case2 l hne ih =>
    obtain ⟨us, t, hus, ht, hmem⟩ := ih
    refine ⟨l.nextLexeme.1.token :: us, t, by rw [List.map_cons, hus]; rfl, ht, ?_⟩
    intro u hu
    rcases List.mem_cons.mp hu with rfl | hu
    · exact hne
    · exact hmem u hu

/-! ### Positions -/

theorem Pos.isValid_advance {p : Pos} (h : p.isValid = true) (n : Nat) : (p.advance n).isValid = true := by
  have hne : p.index ≠ 0 := by simpa [isValid] using h
  rw [isValid, decide_eq_true_iff, index_advance]
  omega

namespace Lexer

theorem base_next (l : Lexer) : l.next.2.base = l.base := by
  fun_induction next l with
  | case1 l hrest => rfl
  | case2 l c cs hrest more breaks fault hpiece l' width l'' hbreaks => rfl
  | case3 l c cs hrest more breaks fault hpiece l' width l'' hbreaks ih => exact ih
  | case4 l c cs hrest kind more faults hpiece l' text => rfl

theorem isValid_pos_next (l : Lexer) (h : l.base.isValid = true) : l.next.1.pos.isValid = true := by
  fun_induction next l with
  | case1 l hrest => exact Pos.isValid_advance h l.offset
  | case2 l c cs hrest more breaks fault hpiece l' width l'' hbreaks => exact Pos.isValid_advance h l.offset
  | case3 l c cs hrest more breaks fault hpiece l' width l'' hbreaks ih => exact ih h
  | case4 l c cs hrest kind more faults hpiece l' text => exact Pos.isValid_advance h l.offset

theorem isValid_pos_lexemes (l : Lexer) (h : l.base.isValid = true) :
    ∀ x ∈ l.lexemes, x.token.pos.isValid = true := by
  fun_induction lexemes l with
  | case1 l heof => exact List.forall_mem_singleton.mpr (isValid_pos_next _ h)
  | case2 l hne ih =>
    refine List.forall_mem_cons.mpr ⟨isValid_pos_next _ h, ih ?_⟩
    exact (congrArg Pos.isValid (base_next l.takeErrors.2)).trans h

end Lexer

end RoseLang
