import RoseLang.Proofs.Scope.Objects

/-!
# Uses and declarations in order

The identifiers of a tree that denote something are those in its expressions and types. `Stmt.events` puts
them in order with the specs: a spec comes after its type and its values, which do not see its names.
`WellUsed` says of a list of events what every identifier is bound to.
-/

namespace RoseLang

def Expr.idents : Expr → List Ident
  | bad .. | literal .. => []
  | ident _ i => [i]
  | paren _ _ inner _ => inner.idents
  | unary _ _ _ operand => operand.idents
  | binary _ _ _ left right => left.idents ++ right.idents

/-- An identifier that stands for an operand or for a type. -/
structure Use where
  ident : Ident
  inType : Bool
  deriving DecidableEq, Repr

def Expr.uses (inType : Bool) (e : Expr) : List Use := e.idents.map fun i => ⟨i, inType⟩

theorem map_id_flatMap_uses (inType : Bool) (es : List Expr) :
    (es.flatMap (Expr.uses inType)).map (fun u => u.ident.id) = (es.flatMap Expr.idents).map Ident.id := by
  rw [List.map_flatMap, List.map_flatMap]
  exact congrArg (es.flatMap ·) (funext fun e => List.map_map)

def Spec.uses (s : Spec) : List Use :=
  s.type.toList.flatMap (Expr.uses true) ++ s.values.flatMap (Expr.uses false)

def Stmt.uses : Stmt → List Use
  | .bad .. | .empty .. => []
  | .decl _ d => d.entries.flatMap fun x => x.spec.uses
  | .expr _ e | .incDec _ e _ _ => e.uses false
  | .assign _ left _ _ right => (left ++ right).flatMap (Expr.uses false)

/-! ### What an identifier is bound to -/

namespace Use

/-- Whether the identifier is looked up at all: the blank name is not, nor is a built-in type. -/
def IsLookedUp (u : Use) : Prop :=
  u.ident.name ≠ Ident.blank ∧ ¬ (u.inType = true ∧ u.ident.name ∈ Parse.builtinTypes)

instance : DecidablePred IsLookedUp := fun _ => inferInstanceAs (Decidable (_ ∧ _))

/-- What the identifier is bound to where these objects are known by their names. -/
def bindingBy (known : String → Option ObjectId) (u : Use) : Binding :=
  if u.IsLookedUp then
    match known u.ident.name with
    | some object => .resolved object
    | none => .unresolved
  else .unbound

end Use

/-- The identifiers that were looked up in vain. -/
def unresolvedIn (us : List Use) : List Ident :=
  (us.map Use.ident).filter fun i => i.binding = .unresolved

theorem unresolvedIn_append (us vs : List Use) :
    unresolvedIn (us ++ vs) = unresolvedIn us ++ unresolvedIn vs := by
  rw [unresolvedIn, List.map_append, List.filter_append, ← unresolvedIn, ← unresolvedIn]

theorem mem_unresolvedIn {us : List Use} {i : Ident} :
    i ∈ unresolvedIn us ↔ ∃ u ∈ us, u.ident = i ∧ i.binding = .unresolved := by
  rw [unresolvedIn, List.mem_filter, List.mem_map, decide_eq_true_iff]
  constructor
  · rintro ⟨⟨u, hu, hident⟩, hbinding⟩
    exact ⟨u, hu, hident, hbinding⟩
  · rintro ⟨u, hu, hident, hbinding⟩
    exact ⟨⟨u, hu, hident⟩, hbinding⟩

/-! ### Events -/

inductive Event where
  | use (u : Use)
  | declare (x : Entry)
  deriving DecidableEq, Repr

namespace Event

def use? : Event → Option Use
  | use u => some u
  | declare _ => none

def entry? : Event → Option Entry
  | use _ => none
  | declare x => some x

end Event

def Entry.events (x : Entry) : List Event := x.spec.uses.map .use ++ [.declare x]

def Stmt.events : Stmt → List Event
  | .decl _ d => d.entries.flatMap Entry.events
  | st => st.uses.map .use

def usesIn (es : List Event) : List Use := es.filterMap Event.use?

def entriesIn (es : List Event) : List Entry := es.filterMap Event.entry?

section
variable (es fs : List Event) (us : List Use)

@[simp] theorem usesIn_append : usesIn (es ++ fs) = usesIn es ++ usesIn fs := List.filterMap_append

@[simp] theorem entriesIn_append : entriesIn (es ++ fs) = entriesIn es ++ entriesIn fs :=
  List.filterMap_append

@[simp] theorem usesIn_map_use : usesIn (us.map .use) = us := by
  rw [usesIn, List.filterMap_map]
  exact List.filterMap_some

@[simp] theorem entriesIn_map_use : entriesIn (us.map .use) = [] := by
  rw [entriesIn, List.filterMap_map, List.filterMap_eq_nil_iff]
  exact fun _ _ => rfl

end

@[simp] theorem usesIn_events_entry (x : Entry) : usesIn x.events = x.spec.uses := by
  rw [Entry.events, usesIn_append, usesIn_map_use]
  exact List.append_nil _

@[simp] theorem entriesIn_events_entry (x : Entry) : entriesIn x.events = [x] := by
  rw [Entry.events, entriesIn_append, entriesIn_map_use]
  rfl

theorem usesIn_flatMap {α : Type} {f : α → List Event} {g : α → List Use} (h : ∀ a, usesIn (f a) = g a)
    (as : List α) : usesIn (as.flatMap f) = as.flatMap g := by
  rw [usesIn, List.filterMap_flatMap]
  exact congrArg (as.flatMap ·) (funext h)

theorem entriesIn_flatMap {α : Type} {f : α → List Event} {g : α → List Entry}
    (h : ∀ a, entriesIn (f a) = g a) (as : List α) : entriesIn (as.flatMap f) = as.flatMap g := by
  rw [entriesIn, List.filterMap_flatMap]
  exact congrArg (as.flatMap ·) (funext h)

theorem usesIn_events (st : Stmt) : usesIn st.events = st.uses := by
  cases st with
  | decl id d => exact usesIn_flatMap usesIn_events_entry d.entries
  | _ => exact usesIn_map_use _

theorem entriesIn_events (st : Stmt) : entriesIn st.events = st.entries := by
  cases st with
  | decl id d =>
    refine (entriesIn_flatMap entriesIn_events_entry d.entries).trans ?_
    exact List.flatMap_singleton' d.entries
  | _ => exact entriesIn_map_use _

theorem mem_usesIn {es : List Event} {u : Use} : u ∈ usesIn es ↔ .use u ∈ es := by
  rw [usesIn, List.mem_filterMap]
  constructor
  · rintro ⟨e, he, hu⟩
    cases e with
    | use v =>
      cases hu
      exact he
    | declare x => cases hu
  · exact fun hu => ⟨_, hu, rfl⟩

theorem mem_entriesIn {es : List Event} {x : Entry} : x ∈ entriesIn es ↔ .declare x ∈ es := by
  rw [entriesIn, List.mem_filterMap]
  constructor
  · rintro ⟨e, he, hx⟩
    cases e with
    | use u => cases hx
    | declare y =>
      cases hx
      exact he
  · exact fun hx => ⟨_, hx, rfl⟩

/-! ### Names where they are used -/

/-- Every identifier is bound to the first object of its name among those that these declarations and the
specs before it make. -/
def WellUsed (sites : List Site) : List Event → Prop
  | [] => True
  | .use u :: es => u.ident.binding = u.bindingBy (firstObject? sites) ∧ WellUsed sites es
  | .declare x :: es => WellUsed (sites ++ x.sites) es

theorem wellUsed_append {sites : List Site} {es fs : List Event} :
    WellUsed sites (es ++ fs) ↔ WellUsed sites es ∧ WellUsed (sites ++ sitesOf (entriesIn es)) fs := by
  induction es generalizing sites with
  | nil => simp [WellUsed, entriesIn, sitesOf]
  | cons e es ih =>
    cases e with
    | use u =>
      rw [List.cons_append, WellUsed, WellUsed, ih, and_assoc]
      rfl
    | declare x =>
      rw [List.cons_append, WellUsed, WellUsed, ih, List.append_assoc]
      rfl

theorem wellUsed_map_use {sites : List Site} {us : List Use} :
    WellUsed sites (us.map .use) ↔ ∀ u ∈ us, u.ident.binding = u.bindingBy (firstObject? sites) := by
  induction us with
  | nil => simp [WellUsed]
  | cons u us ih => rw [List.map_cons, WellUsed, ih, List.forall_mem_cons]

/-- What an identifier is bound to depends on the specs before it. -/
theorem WellUsed.binding {before after : List Event} {u : Use}
    (h : WellUsed [] (before ++ .use u :: after)) :
    u.ident.binding = u.bindingBy (firstObject? (sitesOf (entriesIn before))) :=
  (wellUsed_append.mp h).2.1

/-! ### Numbers -/

/-- The numbers are distinct and were given out from `first` on, before `next`. -/
structure Numbered (first : NodeId) (ids : List NodeId) (next : NodeId) : Prop where
  le : first ≤ next
  within : ∀ id ∈ ids, first ≤ id ∧ id < next
  nodup : ids.Nodup

namespace Numbered

variable {l m n : NodeId} {ids ids' : List NodeId}

theorem nil (h : m ≤ n) : Numbered m [] n := ⟨h, by simp, List.nodup_nil⟩

theorem single (n : NodeId) : Numbered n [n] (n + 1) :=
  ⟨Nat.le_succ n, by simp, by simp⟩

theorem append (h : Numbered l ids m) (h' : Numbered m ids' n) : Numbered l (ids ++ ids') n where
  le := Nat.le_trans h.le h'.le
  within id hid := by
    rcases List.mem_append.mp hid with hid | hid
    · exact ⟨(h.within id hid).1, Nat.lt_of_lt_of_le (h.within id hid).2 h'.le⟩
    · exact ⟨Nat.le_trans h.le (h'.within id hid).1, (h'.within id hid).2⟩
  nodup := by
    refine List.nodup_append.mpr ⟨h.nodup, h'.nodup, fun a ha b hb heq => ?_⟩
    have hlt := (h.within a ha).2
    have hle := (h'.within b hb).1
    exact absurd (heq ▸ hlt) (Nat.not_lt.mpr hle)

theorem mono (h : Numbered m ids n) (hl : l ≤ m) {k : NodeId} (hk : n ≤ k) : Numbered l ids k := by
  simpa using ((nil hl).append h).append (nil hk)

end Numbered

end RoseLang
