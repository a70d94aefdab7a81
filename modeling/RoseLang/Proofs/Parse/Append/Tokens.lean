import RoseLang.Proofs.Parse.Append.State
import RoseLang.Proofs.Token.Cover

/-!
# Tokens of a text inside a longer one

Two texts with a line end between them have the tokens of the one and those of the other. The line end is a
terminator where the end of the first text is one, no token and no comment of the first text goes past it, and the
second text is read as from a fresh start.
-/

namespace RoseLang

open Text
open Parse (Seam)

namespace Lexer

/-- What `l` reads stands between two other texts in what `l'` reads, and both have read the same part of it. -/
structure Inside (base : Pos) (lead source tail before : List Char) (l l' : Lexer) : Prop where
  left : l.At base source before
  right : l'.At base (lead ++ source ++ tail) (lead ++ before)
  pending : l'.pending = l.pending
  clean : l'.errors = []

variable {base : Pos} {lead source tail before cs after : List Char} {l l' u : Lexer}

namespace Inside

theorem rest (h : Inside base lead source tail before l l') : l'.rest = l.rest ++ tail := by
  have hsource := h.right.source_eq
  rw [h.left.source_eq, List.append_assoc, List.append_assoc, List.append_assoc] at hsource
  exact (List.append_cancel_left (List.append_cancel_left hsource)).symm

theorem pos (h : Inside base lead source tail before l l') (hbase : base.isValid = true) :
    l'.pos = l.pos.moved (utf8Length lead) := by
  have hleft := h.left.index_pos
  have hright := h.right.index_pos
  have hne : base.index ≠ 0 := of_decide_eq_true hbase
  have hvalid : l.pos.isValid = true := decide_eq_true (by omega)
  rw [Pos.moved, if_pos hvalid]
  show Pos.mk l'.pos.index = _
  rw [hright, hleft, utf8Length_append]
  congr 1
  omega

section
variable (h : Inside base lead source tail before l l') (htail : ∀ c ∈ tail.head?, c = '\n')
include h htail

theorem gap (hgap : PassesGap l cs after none u) :
    ∃ u', PassesGap l' cs (after ++ tail) none u' ∧ Inside base lead source tail (before ++ cs) u u' := by
  obtain ⟨c, more, breaks, rfl, hpiece⟩ := hgap.piece
  have hrest : l'.rest = c :: (more ++ (after ++ tail)) := by
    rw [h.rest, hgap.rest, List.append_assoc]
    rfl
  have hpiece' := Piece.first_append_gap htail hpiece
  rw [List.append_assoc] at hpiece'
  obtain ⟨u', hgap'⟩ := passesGap_of_first hrest hpiece'
  rw [List.take_left, List.drop_left] at hgap'
  refine ⟨u', hgap', h.left.advances hgap.toAdvances, ?_, ?_, ?_⟩
  · rw [← List.append_assoc]
    exact h.right.advances hgap'.toAdvances
  · rw [hgap'.pending, hgap.pending, h.pending]
  · rw [hgap'.errors, h.clean]
    rfl

theorem token {t : Token} (hclean : l.tokenize.2 = []) (htoken : ReadsToken l cs after t u) :
    ∃ t' u', ReadsToken l' cs (after ++ tail) t' u' ∧ t'.kind = t.kind ∧
      Inside base lead source tail (before ++ cs) u u' := by
  obtain ⟨-, c, more, rfl, hpiece⟩ := htoken.faultless hclean
  have hrest : l'.rest = c :: (more ++ (after ++ tail)) := by
    rw [h.rest, htoken.rest, List.append_assoc]
    rfl
  have hpiece' := Piece.first_append (fun d hd => .inr (.inr (htail d hd))) hpiece
  rw [List.append_assoc] at hpiece'
  obtain ⟨t', u', htoken'⟩ := readsToken_of_first hrest hpiece'
  rw [List.take_left, List.drop_left] at htoken'
  obtain ⟨c', more', faults, hcs, hfirst, herrors⟩ := htoken'.piece
  obtain ⟨rfl, rfl⟩ := List.cons.inj hcs
  rw [hpiece', Piece.token.injEq] at hfirst
  obtain ⟨hkind, -, rfl⟩ := hfirst
  refine ⟨t', u', htoken', hkind.symm, h.left.advances htoken.toAdvances, ?_, ?_, ?_⟩
  · rw [← List.append_assoc]
    exact h.right.advances htoken'.toAdvances
  · rw [htoken'.pending, htoken.pending, hkind]
  · rw [herrors, record, h.clean]
    rfl

end

/-- What is still to be read of the inner text is read in the longer one as far as the inner text goes. -/
theorem reads (hbase : base.isValid = true) (htail : ∀ c ∈ tail.head?, c = '\n') (hclean : l.tokenize.2 = [])
    (h : Inside base lead source tail before l l') :
    ∃ e e', e.rest = [] ∧ Inside base lead source tail source e e' ∧ l'.tokenize.2 = e'.tokenize.2 ∧
      ∀ m : Seam, m.bytes = utf8Length lead → m.Lead e.tokenize.1 e'.tokenize.1 →
        m.Lead l.tokenize.1 l'.tokenize.1 := by
  induction l using tokenize_induction generalizing before l' with
  | nil l hrest =>
    have hsource := h.left.source_eq
    rw [hrest, List.append_nil] at hsource
    exact ⟨l, l', hrest, hsource ▸ h, rfl, fun _ _ hlead => hlead⟩
  | gap l cs after fault u hgap ih =>
    obtain ⟨rfl, hclean'⟩ := hgap.faultless hclean
    obtain ⟨u', hgap', hnext⟩ := h.gap htail hgap
    obtain ⟨e, e', hrest, hend, herrors, hleads⟩ := ih hclean' hnext
    refine ⟨e, e', hrest, hend, by rw [hgap'.tokenize, ← herrors], fun m hm hlead => ?_⟩
    rw [hgap.tokenize, hgap'.tokenize, h.pending]
    have hread := hleads m hm hlead
    dsimp only
    split
    · exact .cons ⟨rfl, .inr rfl, rfl, hm ▸ h.pos hbase⟩ (by simp) hread
    · exact hread
  | token l cs after t u htoken ih =>
    obtain ⟨t', u', htoken', hkind, hnext⟩ := h.token htail hclean htoken
    obtain ⟨e, e', hrest, hend, herrors, hleads⟩ := ih (htoken.faultless hclean).1 hnext
    refine ⟨e, e', hrest, hend, by rw [htoken'.tokenize, ← herrors], fun m hm hlead => ?_⟩
    rw [htoken.tokenize, htoken'.tokenize]
    have htext : t'.text = t.text := by rw [htoken'.text, htoken.text, hkind]
    have hpos : t'.pos = t.pos.moved m.bytes := by
      rw [Token.pos, Token.pos, htoken'.span, htoken.span, hm]
      exact h.pos hbase
    have himplicit : t'.isImplicitSemi = t.isImplicitSemi := by
      rw [Token.isImplicitSemi, Token.isImplicitSemi, hkind, htext]
    exact .cons ⟨hkind, .inr htext, himplicit, hpos⟩ htoken.kind_ne (hleads m hm hlead)

end Inside

/-- The end of a text, where the longer one goes on with a line end. -/
theorem Inside.line {after : List Char} (h : Inside base lead source ('\n' :: after) source l l') (hrest : l.rest = [])
    (hbase : base.isValid = true) :
    ∃ u : Lexer, u.At base (lead ++ source ++ '\n' :: after) (lead ++ source ++ ['\n']) ∧ u.pending = false ∧
      u.errors = [] ∧ l'.tokenize.2 = u.tokenize.2 ∧
      ∀ m : Seam, m.bytes = utf8Length lead → m.follow = u.tokenize.1 → m.Lead l.tokenize.1 l'.tokenize.1 := by
  have hrest' : l'.rest = '\n' :: after := by rw [h.rest, hrest, List.nil_append]
  have hpiece : Piece.first '\n' after = .gap 0 true none := (Piece.IsFirst.line rfl).first_eq
  obtain ⟨u, hgap⟩ := passesGap_of_first hrest' hpiece
  rw [List.take_zero, List.drop_zero] at hgap
  refine ⟨u, h.right.advances hgap.toAdvances, ?_, ?_, by rw [hgap.tokenize], fun m hm hfollow => ?_⟩
  · rw [hgap.pending]
    simp
  · rw [hgap.errors, h.clean]
    rfl
  · rw [tokenize_of_nil hrest, hgap.tokenize, h.pending]
    dsimp only
    have heof : m.Lead [⟨.eof, ⟨l.pos, l.pos⟩, ""⟩] u.tokenize.1 := hfollow ▸ .last rfl
    have hpos := h.pos hbase
    rw [← hm] at hpos
    cases l.pending with
    | false => exact heof
    | true => exact .cons ⟨rfl, .inl rfl, rfl, hpos⟩ (by simp) heof

/-- The end of a text at which the longer one ends, too. -/
theorem Inside.stop (h : Inside base lead source [] source l l') (hrest : l.rest = []) (hbase : base.isValid = true) :
    l'.tokenize.2 = [] ∧ ∀ m : Seam, m.bytes = utf8Length lead → m.follow = [⟨.eof, ⟨l'.pos, l'.pos⟩, ""⟩] →
      m.Lead l.tokenize.1 l'.tokenize.1 := by
  have hrest' : l'.rest = [] := by rw [h.rest, hrest, List.append_nil]
  rw [tokenize_of_nil hrest, tokenize_of_nil hrest', h.pending]
  refine ⟨h.clean, fun m hm hfollow => ?_⟩
  have heof : m.Lead [⟨.eof, ⟨l.pos, l.pos⟩, ""⟩] [⟨.eof, ⟨l'.pos, l'.pos⟩, ""⟩] := hfollow ▸ .last rfl
  have hpos := h.pos hbase
  rw [← hm] at hpos
  cases l.pending with
  | false => exact heof
  | true => exact .cons ⟨rfl, .inr rfl, rfl, hpos⟩ (by simp) heof

/-- The tokens of two texts with a line end between them. -/
theorem lead_ofText {first second : String} (hbase : base.isValid = true)
    (hfits : base.index + utf8Length (first ++ "\n" ++ second).toList ≤ Pos.last.index)
    (hfirst : (ofText first base).tokenize.2 = []) (hsecond : (ofText second base).tokenize.2 = []) (ids : Nat) :
    (ofText (first ++ "\n" ++ second) base).tokenize.2 = [] ∧
      ∃ m m' : Seam, m.bytes = 0 ∧ m.ids = 0 ∧ m'.bytes = utf8Length first.toList + 1 ∧ m'.ids = ids ∧
        m.Lead (ofText first base).tokenize.1 (ofText (first ++ "\n" ++ second) base).tokenize.1 ∧
        m'.Lead (ofText second base).tokenize.1 m.follow ∧ ∃ t, m'.follow = [t] ∧ t.kind = .eof := by
  have hsource : (first ++ "\n" ++ second).toList = first.toList ++ '\n' :: second.toList := by
    rw [String.toList_append, String.toList_append, List.append_assoc]
    rfl
  have hfits' := hfits
  rw [hsource, utf8Length_append, utf8Length_cons] at hfits'
  have hinner : Inside base [] first.toList ('\n' :: second.toList) [] (ofText first base)
      (ofText (first ++ "\n" ++ second) base) := ⟨at_ofText (by omega), hsource ▸ at_ofText hfits, rfl, rfl⟩
  have hline : ∀ c ∈ ('\n' :: second.toList).head?, c = '\n' := fun c hc => (Option.some.inj hc).symm
  obtain ⟨e, e', hrest, hend, herrors, hleads⟩ := hinner.reads hbase hline hfirst
  obtain ⟨u, hu, hpending, hclean, herrors', hbreak⟩ := hend.line hrest hbase
  have hinside : Inside base (first.toList ++ ['\n']) second.toList [] [] (ofText second base) u := by
    refine ⟨at_ofText (by omega), ?_, hpending, hclean⟩
    rwa [List.append_nil, List.append_nil, List.append_assoc]
  have hnothing : ∀ c ∈ ([] : List Char).head?, c = '\n' := fun c hc => by cases hc
  obtain ⟨d, d', hrest', hstop, herrors'', hleads'⟩ := hinside.reads hbase hnothing hsecond
  obtain ⟨hclean', hlast⟩ := hstop.stop hrest' hbase
  let m' : Seam := ⟨utf8Length (first.toList ++ ['\n']), ids, [⟨.eof, ⟨d'.pos, d'.pos⟩, ""⟩], List.cons_ne_nil _ _⟩
  have hlead' : m'.Lead (ofText second base).tokenize.1 u.tokenize.1 := hleads' m' rfl (hlast m' rfl rfl)
  let m : Seam := ⟨0, 0, u.tokenize.1, hlead'.ne_nil.2⟩
  refine ⟨by rw [herrors, herrors', herrors'', hclean'], m, m', rfl, rfl, ?_, rfl, hleads m rfl (hbreak m rfl rfl),
    hlead', _, rfl, rfl⟩
  show utf8Length (first.toList ++ ['\n']) = _
  rw [utf8Length_append]
  rfl

end Lexer

end RoseLang
