import RoseLang.Scope.Tree

/-!
# Scopes around scopes

Every scope keeps the number of the scope around it. Followed from the current scope outward, these numbers
lead through the open scopes and no others, since a scope has a larger number than those around it. A
scope that has been closed is never opened again, so what it binds stays as it is.
-/

namespace RoseLang

theorem of_getElem?_concat {α : Type} {as : List α} {a b : α} {n : Nat} (h : (as ++ [a])[n]? = some b) :
    as[n]? = some b ∨ n = as.length ∧ b = a := by
  rw [List.getElem?_append] at h
  split at h
  · exact .inl h
  · next hge =>
    obtain ⟨hlt, hb⟩ := List.getElem?_eq_some_iff.mp h
    rw [List.length_singleton] at hlt
    rw [List.getElem_singleton] at hb
    exact .inr ⟨by omega, hb.symm⟩

/-- The scope with one more name bound in it. -/
def Scope.enter (scope : Scope) (name : String) (object : ObjectId) : Scope :=
  { scope with bindings := scope.bindings ++ [(name, object)] }

namespace ScopeTree

/-- The scopes that the numbers of parents lead through from the given one outward. -/
inductive Chain (t : ScopeTree) : Option ScopeId → List ScopeId → Prop
  | outermost : Chain t none []
  | inside {id : ScopeId} {scope : Scope} {outer : List ScopeId} (hget : t.get? id = some scope)
      (houter : Chain t scope.parent outer) : Chain t (some id) (id :: outer)

/-- The number of a scope is its index, the scope around it was opened before it, and the open scopes are the
current one and those around it. -/
structure Sound (t : ScopeTree) : Prop where
  numbered : ∀ id scope, t.get? id = some scope → scope.id = id
  parents : ∀ id scope parent, t.get? id = some scope → scope.parent = some parent → parent < id
  chain : t.Chain t.current t.opened

variable {t t' : ScopeTree} {id other : ScopeId} {scope : Scope} {outer : List ScopeId}

theorem lt_of_get? (h : t.get? id = some scope) : id < t.scopes.length :=
  (List.getElem?_eq_some_iff.mp h).1

theorem Chain.congr {first : Option ScopeId} {ids : List ScopeId} (h : t.Chain first ids)
    (hkeep : ∀ id scope, t.get? id = some scope →
      ∃ scope', t'.get? id = some scope' ∧ scope'.parent = scope.parent) : t'.Chain first ids := by
  induction h with
  | outermost => exact .outermost
  | inside hget _ ih =>
    obtain ⟨scope', hget', hparent⟩ := hkeep _ _ hget
    exact .inside hget' (hparent ▸ ih)

theorem Chain.of_some {ids : List ScopeId} (h : t.Chain (some id) ids) :
    ∃ scope outer, ids = id :: outer ∧ t.get? id = some scope ∧ t.Chain scope.parent outer := by
  cases h with
  | inside hget houter => exact ⟨_, _, rfl, hget, houter⟩

theorem Chain.head? {first : Option ScopeId} {ids : List ScopeId} (h : t.Chain first ids) : ids.head? = first := by
  cases h with
  | outermost => rfl
  | inside => rfl

/-- A scope has a larger number than those around it. -/
theorem Chain.lt (hs : t.Sound) {n : Nat} {first : Option ScopeId} {ids : List ScopeId} (h : t.Chain first ids)
    (hfirst : ∀ id, first = some id → id < n) : ∀ id ∈ ids, id < n := by
  induction h generalizing n with
  | outermost => exact fun id hid => absurd hid List.not_mem_nil
  | @inside id scope outer hget houter ih =>
    have hid : id < n := hfirst id rfl
    intro other hother
    rcases List.mem_cons.mp hother with rfl | hother
    · exact hid
    · exact Nat.lt_trans (ih (fun parent hparent => hs.parents id scope parent hget hparent) other hother) hid

theorem get?_push_of_some (h : t.get? id = some scope) (kind : ScopeKind) :
    (t.push kind).2.get? id = some scope := by
  have hlt : id < t.scopes.length := lt_of_get? h
  show (t.scopes ++ [_])[id]? = some scope
  rw [List.getElem?_append_left hlt]
  exact h

theorem get?_push_self (t : ScopeTree) (kind : ScopeKind) :
    (t.push kind).2.get? t.scopes.length = some ⟨t.scopes.length, t.current, kind, []⟩ :=
  List.getElem?_concat_length

/-- A scope of the tree in which a scope has been opened is an old one or the new one. -/
theorem of_get?_push {kind : ScopeKind} (h : (t.push kind).2.get? id = some scope) :
    t.get? id = some scope ∨ id = t.scopes.length ∧ scope = ⟨t.scopes.length, t.current, kind, []⟩ :=
  of_getElem?_concat h

/-- The tree with another scope in the place of one of its scopes. -/
def replace (t : ScopeTree) (id : ScopeId) (scope : Scope) : ScopeTree := { t with scopes := t.scopes.set id scope }

theorem get?_replace_self (h : t.get? id = some scope) (scope' : Scope) :
    (t.replace id scope').get? id = some scope' :=
  List.getElem?_set_self (lt_of_get? h)

theorem get?_replace_of_ne (h : other ≠ id) (scope' : Scope) : (t.replace id scope').get? other = t.get? other :=
  List.getElem?_set_ne (Ne.symm h)

namespace Sound

theorem empty : Sound .empty where
  numbered := nofun
  parents := nofun
  chain := .outermost

theorem current_lt (hs : t.Sound) (hcurrent : t.current = some id) : id < t.scopes.length := by
  have hchain : t.Chain (some id) t.opened := hcurrent ▸ hs.chain
  obtain ⟨scope, outer, -, hget, -⟩ := hchain.of_some
  exact lt_of_get? hget

/-- The innermost of the open scopes. -/
theorem innermost (hs : t.Sound) (hopened : t.opened = id :: outer) :
    ∃ scope, t.get? id = some scope ∧ t.Chain scope.parent outer := by
  have hcurrent : t.current = some id := by
    rw [current, hopened]
    rfl
  have hchain : t.Chain (some id) t.opened := hcurrent ▸ hs.chain
  obtain ⟨scope, further, hids, hget, houter⟩ := hchain.of_some
  obtain rfl : outer = further := (List.cons.inj (hopened.symm.trans hids)).2
  exact ⟨scope, hget, houter⟩

/-- No scope is open twice. -/
theorem notMem_outer (hs : t.Sound) (hopened : t.opened = id :: outer) : id ∉ outer := by
  obtain ⟨scope, hget, houter⟩ := hs.innermost hopened
  intro hmem
  exact Nat.lt_irrefl id (houter.lt hs (fun parent => hs.parents id scope parent hget) id hmem)

theorem push (hs : t.Sound) (kind : ScopeKind) : (t.push kind).2.Sound := by
  constructor
  case numbered =>
    intro id scope hget
    rcases of_get?_push hget with hget | ⟨rfl, rfl⟩
    · exact hs.numbered id scope hget
    · rfl
  case parents =>
    intro id scope parent hget hparent
    rcases of_get?_push hget with hget | ⟨rfl, rfl⟩
    · exact hs.parents id scope parent hget hparent
    · exact hs.current_lt hparent
  case chain =>
    apply Chain.inside (get?_push_self t kind)
    apply hs.chain.congr
    intro id scope hget
    exact ⟨scope, get?_push_of_some hget kind, rfl⟩

theorem pop (hs : t.Sound) : t.pop.Sound := by
  refine ⟨hs.numbered, hs.parents, ?_⟩
  show t.pop.Chain t.opened.tail.head? t.opened.tail
  cases hopened : t.opened with
  | nil => exact .outermost
  | cons id outer =>
    obtain ⟨scope, -, houter⟩ := hs.innermost hopened
    rw [List.tail_cons, houter.head?]
    exact houter.congr fun id scope hget => ⟨scope, hget, rfl⟩

theorem replace {scope' : Scope} (hs : t.Sound) (hget : t.get? id = some scope) (hid : scope'.id = scope.id)
    (hparent : scope'.parent = scope.parent) : (t.replace id scope').Sound := by
  constructor
  case numbered =>
    intro other found hfound
    by_cases hother : other = id
    · subst hother
      obtain rfl := Option.some.inj ((get?_replace_self hget scope').symm.trans hfound)
      rw [hid]
      exact hs.numbered other scope hget
    · rw [get?_replace_of_ne hother] at hfound
      exact hs.numbered other found hfound
  case parents =>
    intro other found parent hfound hparent'
    by_cases hother : other = id
    · subst hother
      obtain rfl := Option.some.inj ((get?_replace_self hget scope').symm.trans hfound)
      exact hs.parents other scope parent hget (hparent ▸ hparent')
    · rw [get?_replace_of_ne hother] at hfound
      exact hs.parents other found parent hfound hparent'
  case chain =>
    apply hs.chain.congr
    intro other found hfound
    by_cases hother : other = id
    · subst hother
      obtain rfl := Option.some.inj (hget.symm.trans hfound)
      exact ⟨scope', get?_replace_self hget scope', hparent⟩
    · exact ⟨found, (get?_replace_of_ne hother scope').trans hfound, rfl⟩

end Sound

/-- What is bound in the innermost scope. -/
theorem insert_of_open (hs : t.Sound) (hopened : t.opened = id :: outer) (hget : t.get? id = some scope)
    (name : String) (object : ObjectId) :
    t.insert name object =
      match scope.lookup name with
      | some earlier => (some earlier, t)
      | none => (none, t.replace id (scope.enter name object)) := by
  have hcurrent : t.current.bind t.get? = some scope := by
    rw [current, hopened]
    exact hget
  have hid : scope.id = id := hs.numbered id scope hget
  rw [insert, hcurrent]
  dsimp only
  cases scope.lookup name with
  | some earlier => rfl
  | none =>
    show (none, t.replace scope.id (scope.enter name object)) = _
    rw [hid]

theorem insert_of_closed (hopened : t.opened = []) (name : String) (object : ObjectId) :
    t.insert name object = (none, t) := by
  rw [insert, current, hopened]
  rfl

/-! ### Closed scopes -/

/-- The scope has been opened, and it is closed again. -/
def Closed (t : ScopeTree) (id : ScopeId) : Prop := id < t.scopes.length ∧ id ∉ t.opened

namespace Closed

theorem push (h : t.Closed id) (kind : ScopeKind) :
    (t.push kind).2.get? id = t.get? id ∧ (t.push kind).2.Closed id := by
  obtain ⟨hlt, hnot⟩ := h
  refine ⟨List.getElem?_append_left hlt, ?_, ?_⟩
  · show id < (t.scopes ++ [_]).length
    rw [List.length_append]
    exact Nat.lt_add_right _ hlt
  · intro hmem
    rcases List.mem_cons.mp hmem with rfl | hmem
    · exact Nat.lt_irrefl _ hlt
    · exact hnot hmem

theorem pop (h : t.Closed id) : t.pop.get? id = t.get? id ∧ t.pop.Closed id :=
  ⟨rfl, h.1, fun hmem => h.2 (List.mem_of_mem_tail hmem)⟩

/-- Names are bound in open scopes only. -/
theorem insert (hs : t.Sound) (h : t.Closed id) (name : String) (object : ObjectId) :
    (t.insert name object).2.get? id = t.get? id ∧ (t.insert name object).2.Closed id := by
  cases hopened : t.opened with
  | nil =>
    rw [insert_of_closed hopened]
    exact ⟨rfl, h⟩
  | cons current outer =>
    obtain ⟨scope, hget, -⟩ := hs.innermost hopened
    rw [insert_of_open hs hopened hget]
    cases scope.lookup name with
    | some earlier => exact ⟨rfl, h⟩
    | none =>
      have hne : id ≠ current := by
        rintro rfl
        apply h.2
        rw [hopened]
        exact List.mem_cons_self
      refine ⟨get?_replace_of_ne hne _, ?_, h.2⟩
      show id < (t.scopes.set current _).length
      rw [List.length_set]
      exact h.1

end Closed

end ScopeTree

end RoseLang
