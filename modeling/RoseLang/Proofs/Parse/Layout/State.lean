import RoseLang.Proofs.Parse.Step
import RoseLang.Proofs.Scope.Alike

/-!
# Parses that differ in positions only

A parse asks of positions how they are ordered, whether they are there at all, and, unless all faults are wanted,
which of them share a line. Two states that agree in this, and in everything else but their positions, are alike,
and each step of a parse keeps them so. `Sim` says it of parsers: from states that are alike both come to
states that are alike, with values that are related.
-/

namespace RoseLang

/-- Positions that correspond to each other are there, and they are ordered in the same way. -/
structure KeepsOrder (P : Pos → Pos → Prop) : Prop where
  pos : ∀ {p p' : Pos}, P p p' → 0 < p.index ∧ 0 < p'.index
  lt_iff : ∀ {p p' q q' : Pos}, P p p' → P q q' → (p.index < q.index ↔ p'.index < q'.index)

/-- Positions that correspond to each other, if there are any. -/
def OrNone (P : Pos → Pos → Prop) (p p' : Pos) : Prop := P p p' ∨ p = .none ∧ p' = .none

namespace KeepsOrder

variable {P : Pos → Pos → Prop} (hP : KeepsOrder P) {p p' q q' : Pos}
include hP

theorem le_iff (hp : P p p') (hq : P q q') : p.index ≤ q.index ↔ p'.index ≤ q'.index := by
  rw [← Nat.not_lt, ← Nat.not_lt, hP.lt_iff hq hp]

theorem eq_iff (hp : P p p') (hq : OrNone P q q') : p = q ↔ p' = q' := by
  have hindex : ∀ {a b : Pos}, a = b ↔ a.index ≤ b.index ∧ b.index ≤ a.index := fun {a b} =>
    ⟨fun h => h ▸ ⟨Nat.le_refl _, Nat.le_refl _⟩, fun h => congrArg Pos.mk (Nat.le_antisymm h.1 h.2)⟩
  rcases hq with hq | ⟨rfl, rfl⟩
  · rw [hindex, hindex, hP.le_iff hp hq, hP.le_iff hq hp]
  · have hne : ∀ {a : Pos}, 0 < a.index → a ≠ .none := fun hpos heq => Nat.ne_of_gt hpos (congrArg Pos.index heq)
    exact iff_of_false (hne (hP.pos hp).1) (hne (hP.pos hp).2)

theorem behind_iff (hq : OrNone P q q') (hp : P p p') : q.index < p.index ↔ q'.index < p'.index := by
  rcases hq with hq | ⟨rfl, rfl⟩
  · exact hP.lt_iff hq hp
  · exact iff_of_true (hP.pos hp).1 (hP.pos hp).2

end KeepsOrder

section
variable (P : Pos → Pos → Prop)

/-- Where a token ends makes no difference. -/
structure Token.Alike (t t' : Token) : Prop where
  kind : t.kind = t'.kind
  text : t.text = t'.text
  pos : P t.pos t'.pos

structure LexError.Alike (e e' : LexError) : Prop where
  start : P e.span.start e'.span.start
  message : e.message = e'.message

structure Lexeme.Alike (l l' : Lexeme) : Prop where
  token : l.token.Alike P l'.token
  errors : List.Forall₂ (LexError.Alike P) l.errors l'.errors

namespace Parse

/-- Only a redeclaration tells positions. -/
inductive Fault.Alike : Fault → Fault → Prop where
  | same {fault : Fault} (h : fault.cause = none) : Alike fault fault
  | redeclared {r r' : Redeclaration} (h : r.Alike P r') : Alike (.redeclared r) (.redeclared r')

structure Finding.Alike (f f' : Finding) : Prop where
  pos : P f.pos f'.pos
  fault : f.fault.Alike P f'.fault

structure State.Alike (s s' : State) : Prop where
  lines : s.allErrors = true ∨ ∀ p p', P p p' → (s.file.position p).line = (s'.file.position p').line
  allErrors : s.allErrors = s'.allErrors
  token : s.token.Alike P s'.token
  rest : List.Forall₂ (Lexeme.Alike P) s.rest s'.rest
  syncPos : OrNone P s.syncPos s'.syncPos
  syncCount : s.syncCount = s'.syncCount
  depth : s.depth = s'.depth
  inRhs : s.inRhs = s'.inRhs
  nextId : s.nextId = s'.nextId
  stmts : List.Forall₂ (Stmt.Alike P) s.stmts s'.stmts
  names : s.names.Alike P s'.names
  findings : List.Forall₂ (Finding.Alike P) s.findings s'.findings

end Parse

end

theorem rel_getLast? {α β : Type} {R : α → β → Prop} {as : List α} {bs : List β} (h : List.Forall₂ R as bs) :
    Option.Rel R as.getLast? bs.getLast? := by
  rw [List.getLast?_eq_getElem?, List.getLast?_eq_getElem?, h.length_eq]
  exact rel_getElem? h _

namespace Parse

variable {P : Pos → Pos → Prop}

namespace State.Alike

variable {s s' : State}

theorem keep (h : s.Alike P s') {f f' : Finding} (hf : f.Alike P f') : State.Alike P (s.keep f) (s'.keep f') :=
  { h with findings := List.rel_append h.findings (.cons hf .nil) }

theorem isFull (h : s.Alike P s') : s.isFull = s'.isFull := by
  rw [State.isFull, State.isFull, h.findings.length_eq]

theorem repeatsLine (h : s.Alike P s') (hall : s.allErrors = false) {pos pos' : Pos} (hpos : P pos pos') :
    s.repeatsLine pos = s'.repeatsLine pos' := by
  have hlines := h.lines.resolve_left (by rw [hall]; decide)
  rw [State.repeatsLine, State.repeatsLine]
  generalize s.findings.getLast? = last, s'.findings.getLast? = last', rel_getLast? h.findings = hlast
  cases hlast with
  | none => rfl
  | some hf => rw [Option.any_some, Option.any_some, hlines _ _ hf.pos, hlines _ _ hpos]

theorem keepLexical (h : s.Alike P s') {e e' : LexError} (he : e.Alike P e') :
    State.Alike P (s.keepLexical e) (s'.keepLexical e') := by
  have hkeep : State.Alike P (s.keep ⟨e.span.start, .lexical e.message⟩)
      (s'.keep ⟨e'.span.start, .lexical e'.message⟩) := h.keep ⟨he.start, he.message ▸ .same rfl⟩
  have hdrop : (!s.allErrors && (s.repeatsLine e.span.start || s.isFull)) =
      (!s'.allErrors && (s'.repeatsLine e'.span.start || s'.isFull)) := by
    cases hall : s.allErrors with
    | true => rw [← h.allErrors, hall]; rfl
    | false => rw [← h.allErrors, hall, h.repeatsLine hall he.start, h.isFull]
  rw [State.keepLexical, State.keepLexical, ← hdrop]
  split
  · exact h
  · exact hkeep

theorem foldl_keepLexical {es es' : List LexError} (hes : List.Forall₂ (LexError.Alike P) es es')
    (h : s.Alike P s') : State.Alike P (es.foldl State.keepLexical s) (es'.foldl State.keepLexical s') := by
  induction hes generalizing s s' with
  | nil => exact h
  | cons he hes ih => exact ih (h.keepLexical he)

theorem next (h : s.Alike P s') : State.Alike P s.next s'.next := by
  have hrest := h.rest
  rw [State.next, State.next]
  generalize s.rest = ls, s'.rest = ls' at hrest
  cases hrest with
  | nil => exact h
  | cons hl hrest => exact foldl_keepLexical hl.errors { h with token := hl.token, rest := hrest }

theorem stop? (hP : KeepsOrder P) (h : s.Alike P s') (kinds : List Kind) :
    Option.Rel (State.Alike P) (s.stop? kinds) (s'.stop? kinds) := by
  -- before the first recovery there is no place to compare with, and every token is behind it
  have hagain_iff : s.token.pos = s.syncPos ∧ s.syncCount < maxRetries ↔
      s'.token.pos = s'.syncPos ∧ s.syncCount < maxRetries :=
    and_congr_left fun _ => hP.eq_iff h.token.pos h.syncPos
  have hbehind_iff := hP.behind_iff h.syncPos h.token.pos
  rw [State.stop?, State.stop?, ← h.token.kind, ← h.syncCount]
  by_cases hkind : kinds.contains s.token.kind = true
  · rw [if_pos hkind, if_pos hkind]
    by_cases hagain : s.token.pos = s.syncPos ∧ s.syncCount < maxRetries
    · rw [if_pos hagain, if_pos (hagain_iff.mp hagain)]
      exact .some { h with syncCount := rfl }
    · rw [if_neg hagain, if_neg (mt hagain_iff.mpr hagain)]
      by_cases hbehind : s.syncPos.index < s.token.pos.index
      · rw [if_pos hbehind, if_pos (hbehind_iff.mp hbehind)]
        exact .some { h with syncPos := .inl h.token.pos, syncCount := rfl }
      · rw [if_neg hbehind, if_neg (mt hbehind_iff.mpr hbehind)]
        exact .none
  · rw [if_neg hkind, if_neg hkind]
    exact .none

theorem skipTo (hP : KeepsOrder P) (kinds : List Kind) (h : s.Alike P s') :
    State.Alike P (s.skipTo kinds) (s'.skipTo kinds) := by
  fun_induction State.skipTo kinds s generalizing s' with
  | case1 s heof =>
    rw [State.skipTo, if_pos (h.token.kind ▸ heof)]
    exact h
  | case2 s heof stopped hstop =>
    have hrel := h.stop? hP kinds
    rw [hstop] at hrel
    rw [State.skipTo, if_neg (h.token.kind ▸ heof)]
    generalize s'.stop? kinds = found at hrel
    cases hrel with
    | some hstopped => exact hstopped
  | case3 s heof hstop hrest =>
    have hrel := h.stop? hP kinds
    have hrest' : s'.rest = [] := List.forall₂_nil_left_iff.mp (hrest ▸ h.rest)
    rw [hstop] at hrel
    rw [State.skipTo, if_neg (h.token.kind ▸ heof)]
    generalize s'.stop? kinds = found at hrel
    cases hrel with
    | none =>
      dsimp only
      rw [if_pos hrest']
      exact h
  | case4 s heof hstop hrest ih =>
    have hrel := h.stop? hP kinds
    have hrest' : s'.rest ≠ [] := fun hnil => hrest (List.forall₂_nil_right_iff.mp (hnil ▸ h.rest))
    rw [hstop] at hrel
    rw [State.skipTo.eq_def kinds s', if_neg (h.token.kind ▸ heof)]
    generalize s'.stop? kinds = found at hrel
    cases hrel with
    | none =>
      dsimp only
      rw [if_neg hrest']
      exact ih h.next

end State.Alike

/-! ### Parsers -/

variable {α α' β β' : Type}

/-- The two results are values that are related, or the same stop, in states that are alike. -/
inductive Outcome (P : Pos → Pos → Prop) (V : α → α' → Prop) :
    EStateM.Result Stop State α → EStateM.Result Stop State α' → Prop where
  | ok {a : α} {a' : α'} {s s' : State} (hvalue : V a a') (h : s.Alike P s') : Outcome P V (.ok a s) (.ok a' s')
  | error {e : Stop} {s s' : State} (h : s.Alike P s') : Outcome P V (.error e s) (.error e s')

/-- From states that are alike the two parsers come to states that are alike, with values related by `V`. -/
def Sim (P : Pos → Pos → Prop) (V : α → α' → Prop) (p : Parser α) (p' : Parser α') : Prop :=
  ∀ s s', s.Alike P s' → Outcome P V (p s) (p' s')

namespace Sim

variable {V : α → α' → Prop} {W : β → β' → Prop} {p : Parser α} {p' : Parser α'}

theorem pure {a : α} {a' : α'} (h : V a a') : Sim P V (Pure.pure a) (Pure.pure a') :=
  fun _ _ hs => .ok h hs

theorem bind {f : α → Parser β} {f' : α' → Parser β'} (hp : Sim P V p p')
    (hf : ∀ a a', V a a' → Sim P W (f a) (f' a')) : Sim P W (p >>= f) (p' >>= f') := by
  intro s s' hs
  have hrun := hp s s' hs
  show Outcome P W (EStateM.bind p f s) (EStateM.bind p' f' s')
  rw [EStateM.bind, EStateM.bind]
  generalize p s = out, p' s' = out' at hrun
  cases hrun with
  | ok hvalue h => exact hf _ _ hvalue _ _ h
  | error h => exact .error h

/-- What is looked up in the state, and goes on from there. -/
theorem look {f : State → α} {f' : State → α'} (h : ∀ s s', s.Alike P s' → V (f s) (f' s')) :
    Sim P V (fun s => .ok (f s) s) (fun s => .ok (f' s) s) :=
  fun s s' hs => .ok (h s s' hs) hs

theorem modify {f f' : State → State} (h : ∀ s s', s.Alike P s' → State.Alike P (f s) (f' s')) :
    Sim P (fun _ _ => True) (modify f : Parser PUnit) (modify f' : Parser PUnit) :=
  fun s s' hs => .ok trivial (h s s' hs)

theorem ite {c : Prop} [Decidable c] {q : Parser α} {q' : Parser α'} (hp : c → Sim P V p p')
    (hq : ¬ c → Sim P V q q') : Sim P V (if c then p else q) (if c then p' else q') := by
  by_cases h : c
  · rw [if_pos h, if_pos h]
    exact hp h
  · rw [if_neg h, if_neg h]
    exact hq h

theorem mapM {R : α → α' → Prop} {f : α → Parser β} {f' : α' → Parser β'} {as : List α} {as' : List α'}
    (has : List.Forall₂ R as as') (hf : ∀ a a', R a a' → Sim P W (f a) (f' a')) :
    Sim P (List.Forall₂ W) (as.mapM f) (as'.mapM f') := by
  induction has with
  | nil =>
    rw [List.mapM_nil, List.mapM_nil]
    exact .pure .nil
  | cons ha has ih =>
    rw [List.mapM_cons, List.mapM_cons]
    exact .bind (hf _ _ ha) fun _ _ hb => .bind ih fun _ _ hbs => .pure (.cons hb hbs)

/-- A loop that is bounded by the number of tokens left. -/
theorem bounded {loop : Nat → Parser α} {loop' : Nat → Parser α'} {f : α → Parser β} {f' : α' → Parser β'}
    (hloop : ∀ n, Sim P V (loop n) (loop' n)) (hf : ∀ a a', V a a' → Sim P W (f a) (f' a')) :
    Sim P W (get >>= fun s => loop s.rest.length >>= f) (get >>= fun s => loop' s.rest.length >>= f') := by
  intro s s' hs
  have hrun := bind (hloop s.rest.length) hf s s' hs
  rw [get_bind, get_bind, ← hs.rest.length_eq]
  exact hrun

theorem keepDepth (hp : Sim P V p p') : Sim P V (keepDepth p) (keepDepth p') := by
  intro s s' hs
  rw [Parse.keepDepth, Parse.keepDepth, get_bind, get_bind]
  refine bind hp (fun a a' ha => bind (modify fun t t' ht => ?_) fun _ _ _ => pure ha) s s' hs
  exact { ht with depth := hs.depth }

theorem withRhs (inRhs : Bool) (hp : Sim P V p p') : Sim P V (withRhs inRhs p) (withRhs inRhs p') := by
  intro s s' hs
  rw [Parse.withRhs, Parse.withRhs, get_bind, get_bind, modify_bind, modify_bind]
  refine bind hp (fun a a' ha => bind (modify fun t t' ht => ?_) fun _ _ _ => pure ha) _ _ { hs with inRhs := rfl }
  exact { ht with inRhs := hs.inRhs }

end Sim

end Parse

end RoseLang
