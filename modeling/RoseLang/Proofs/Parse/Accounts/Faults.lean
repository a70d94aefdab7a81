import RoseLang.Proofs.Parse.Names.Stmt

/-!
# What faults say

The faults of tokens are kept as the tokens are read, all others are reported by the parsers. What a fault says of
a token is so: `Founded` says what that is for each of them, and `Reportable` that a parser may report it.
-/

namespace RoseLang.Parse

/-- The faults of tokens, as they are kept when the tokens are read. -/
def lexicalOf (ls : List Lexeme) : List Finding :=
  (ls.flatMap Lexeme.errors).map fun e => ⟨e.span.start, .lexical e.message⟩

/-- The faults that were met while tokens were read. -/
def lexical (fs : List Finding) : List Finding := fs.filter fun f => f.fault.kind = .lexical

/-- Where the order of the tokens is at fault. -/
def syntacticPositions (fs : List Finding) : List Pos :=
  (fs.filter fun f => f.fault.kind = .syntactic).map Finding.pos

theorem lexical_append (fs gs : List Finding) : lexical (fs ++ gs) = lexical fs ++ lexical gs :=
  List.filter_append _ _

theorem syntacticPositions_append (fs gs : List Finding) :
    syntacticPositions (fs ++ gs) = syntacticPositions fs ++ syntacticPositions gs := by
  rw [syntacticPositions, List.filter_append, List.map_append]
  rfl

theorem lexicalOf_cons (l : Lexeme) (ls : List Lexeme) : lexicalOf (l :: ls) = lexicalOf [l] ++ lexicalOf ls := by
  rw [lexicalOf, List.flatMap_cons, List.map_append, lexicalOf, List.flatMap_singleton]
  rfl

theorem lexical_lexicalOf (ls : List Lexeme) : lexical (lexicalOf ls) = lexicalOf ls := by
  rw [lexical, List.filter_eq_self]
  intro f hf
  obtain ⟨e, -, rfl⟩ := List.mem_map.mp hf
  rfl

/-- One of the tokens is of this kind and has this text. -/
def Written (ls : List Lexeme) (kind : Kind) (text : String) : Prop :=
  ∃ t ∈ ls.map Lexeme.token, t.kind = kind ∧ t.text = text

/-- What a fault says of a token is so, and a redeclaration is where its cause says. A fault of a token is one that
the token has. -/
inductive Founded (ls : List Lexeme) (pos : Pos) : Fault → Prop where
  | expected {what : Expectation} {found : Kind} {text : String} (h : Written ls found text) :
    Founded ls pos (.expected what found text)
  | notType {name : String} (h : Written ls .ident name) : Founded ls pos (.notType name)
  | redeclared {r : Redeclaration} (h : r.pos = pos) : Founded ls pos (.redeclared r)
  | lexical {message : String} (h : ⟨pos, .lexical message⟩ ∈ lexicalOf ls) : Founded ls pos (.lexical message)
  | severalExpressions : Founded ls pos .severalExpressions
  | tooDeep : Founded ls pos .tooDeep
  | missingTypeOrValue : Founded ls pos .missingTypeOrValue
  | missingValue : Founded ls pos .missingValue
  | missingConstant : Founded ls pos .missingConstant
  | surplusValue : Founded ls pos .surplusValue

/-- A fault that a parser may report itself. -/
structure Reportable (ls : List Lexeme) (f : Pos × Fault) : Prop where
  founded : Founded ls f.1 f.2
  kind_ne : f.2.kind ≠ .lexical

/-- A parse that wants every fault keeps all those of the next token. -/
theorem State.next_of_allErrors {s : State} (hall : s.allErrors = true) {l : Lexeme} {rest : List Lexeme}
    (hrest : s.rest = l :: rest) :
    s.next = { s with token := l.token, rest, findings := s.findings ++ lexicalOf [l] } := by
  have hfold : ∀ (es : List LexError) (t : State), t.allErrors = true → es.foldl State.keepLexical t =
      { t with findings := t.findings ++ es.map fun e => ⟨e.span.start, .lexical e.message⟩ } := by
    intro es
    induction es with
    | nil => exact fun t _ => by rw [List.map_nil, List.append_nil]; rfl
    | cons e es ih =>
      intro t ht
      have hkeep : t.keepLexical e = t.keep ⟨e.span.start, .lexical e.message⟩ := by
        rw [State.keepLexical, ht]
        rfl
      rw [List.foldl_cons, hkeep, ih _ (by exact ht), State.keep, List.map_cons, List.append_assoc]
      rfl
  rw [State.next, hrest]
  dsimp only
  rw [hfold l.errors _ (by exact hall), lexicalOf, List.flatMap_singleton]

/-- Nothing that is wrong with the shape of a spec is about tokens. -/
theorem reportable_of_shapeFault? {keyword : DeclKeyword} {index : Nat} {pos : Pos} {names : List Ident}
    {type : Option Expr} {values : List Expr} {f : Pos × Fault}
    (h : shapeFault? keyword index pos names type values = some f) : Reportable ls f := by
  have hmissing : ∀ {fault : Fault}, fault = .missingTypeOrValue ∨ fault = .missingValue ∨
      fault = .missingConstant ∨ fault = .surplusValue → ∀ pos, Reportable ls (pos, fault) := by
    rintro fault (rfl | rfl | rfl | rfl) pos
    · exact ⟨.missingTypeOrValue, by simp [Fault.kind]⟩
    · exact ⟨.missingValue, by simp [Fault.kind]⟩
    · exact ⟨.missingConstant, by simp [Fault.kind]⟩
    · exact ⟨.surplusValue, by simp [Fault.kind]⟩
  rw [shapeFault?.eq_def] at h
  split at h
  · cases keyword with
    | varWord =>
      obtain ⟨-, rfl⟩ := Option.ite_some_none_eq_some.mp h
      exact hmissing (by simp) pos
    | letWord =>
      cases h
      exact hmissing (by simp) pos
    | constWord =>
      obtain ⟨-, rfl⟩ := Option.ite_some_none_eq_some.mp h
      exact hmissing (by simp) pos
  · split at h
    · cases h
      refine hmissing ?_ pos
      split <;> simp
    · split at h
      · cases h
        exact hmissing (by simp) _
      · cases h

/-- The name of a type is that of a token. -/
theorem TypeRuns.written {room : Nat} {s s' : State} {type : Expr} {i : Ident} (h : TypeRuns room s type s')
    (hi : type.bare.ident? = some i) : ∃ t ∈ s.tokens, t.kind = .ident ∧ t.text = i.name := by
  induction h with
  | @name room s t j hkind hname =>
    rw [ident, currentToken_bind, if_pos hkind, next_bind, freshId_bind, pure_eq_ok] at hname
    obtain ⟨rfl, rfl⟩ := hname
    cases hi
    exact ⟨s.token, List.mem_cons_self, hkind, rfl⟩
  | tooDeep hlparen hskipped =>
    obtain ⟨t, -, rfl, -⟩ := skippedExpr_eq_ok hskipped
    cases hi
  | @paren room s t u inner rparen hlparen hinner hrparen ih =>
    obtain ⟨t, ht, hwritten⟩ := ih hi
    exact ⟨t, (State.tokens_next_suffix { s with depth := s.depth + 1 }).subset ht, hwritten⟩
  | missing hlparen hstart hskipped hrparen =>
    obtain ⟨t, -, rfl, -⟩ := skippedExpr_eq_ok hskipped
    cases hi

end RoseLang.Parse
