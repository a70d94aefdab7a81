import RoseLang.Proofs.Parse.Append.Stmt
import RoseLang.Proofs.Scope.Complaints

/-!
# Declarations inside a longer text

What is declared in a text is declared in the longer one, too: the objects are the same but for what has been
used up before. The rules for declarations see names only, so they are kept in the longer text where no name of an
earlier text is declared again or used as a type.
-/

namespace RoseLang

open Parse (Seam)

/-- The object where as many bytes, numbers of nodes and objects have been used up before. -/
def Object.moved (bytes ids objects : Nat) (o : Object) : Object :=
  { o with id := o.id + objects, decl := o.decl + ids, pos := o.pos.moved bytes }

theorem Object.moved_zero (o : Object) : o.moved 0 0 0 = o := by
  rw [moved, Pos.moved_zero]
  rfl

variable {m : Seam}

/-! ### Objects -/

structure Site.Joined (m : Seam) (a a' : Site) : Prop where
  keyword : a'.keyword = a.keyword
  index : a'.index = a.index
  decl : m.Number a.decl a'.decl
  name : m.Name a.name a'.name

theorem Site.Joined.object {a a' : Site} (h : a.Joined m a') (id objects : Nat) :
    a'.object (id + objects) = (a.object id).moved m.bytes m.ids objects := by
  rw [Site.object, Site.object, Object.moved, h.keyword, h.index, h.decl, h.name.name, h.name.pos]

theorem Entry.Joined.sites {x x' : Entry} (h : x.Joined m x') : List.Forall₂ (Site.Joined m) x.sites x'.sites := by
  rw [Entry.sites, Entry.sites, List.forall₂_map_left_iff, List.forall₂_map_right_iff]
  exact h.spec.names.imp fun _ _ hi => ⟨h.keyword, h.index, h.spec.id, hi⟩

theorem forall₂_sitesOf {xs xs' : List Entry} (h : List.Forall₂ (Entry.Joined m) xs xs') :
    List.Forall₂ (Site.Joined m) (sitesOf xs) (sitesOf xs') := by
  induction h with
  | nil => exact .nil
  | cons hx hrest ih => exact List.rel_append hx.sites ih

theorem map_mapIdx_eq_of_forall₂ {α β γ : Type} {R : α → β → Prop} {as : List α} {bs : List β}
    (h : List.Forall₂ R as bs) {f : Nat → α → γ} {g : Nat → β → γ} {move : γ → γ}
    (hmove : ∀ k a b, R a b → move (f k a) = g k b) : (as.mapIdx f).map move = bs.mapIdx g := by
  induction h generalizing f g with
  | nil => rfl
  | cons hab hrest ih =>
    rw [List.mapIdx_cons, List.mapIdx_cons, List.map_cons, hmove 0 _ _ hab, ih fun k a b => hmove (k + 1) a b]

/-- The objects of the same declarations after some others. -/
theorem objects_joined {xs xs' : List Entry} (h : List.Forall₂ (Entry.Joined m) xs xs') (objects : Nat) :
    (sitesOf xs').mapIdx (fun k site => site.object (k + objects)) =
      ((sitesOf xs).mapIdx Site.object).map (Object.moved m.bytes m.ids objects) :=
  (map_mapIdx_eq_of_forall₂ (forall₂_sitesOf h) fun k _ _ ha => (ha.object k objects).symm).symm

/-! ### Rules -/

theorem Spec.declared_erase (s : Spec) : s.erase.declared = s.declared := by
  rw [declared, declared, erase, List.map_map]
  rfl

theorem Spec.typeName?_erase (s : Spec) : s.erase.typeName? = s.typeName? := by
  rw [typeName?, typeName?, erase]
  cases s.type with
  | none => rfl
  | some type => exact Parse.bare_erase type

theorem Entry.Joined.declared {x x' : Entry} (h : x.Joined m x') : x'.spec.declared = x.spec.declared := by
  rw [← Spec.declared_erase, h.spec.erase, Spec.declared_erase]

theorem Entry.Joined.typeIn_iff {x x' : Entry} (h : x.Joined m x') {declared : List String} :
    x'.spec.TypeIn declared ↔ x.spec.TypeIn declared := by
  rw [Spec.TypeIn, Spec.TypeIn, ← Spec.typeName?_erase, h.spec.erase, Spec.typeName?_erase]

theorem declaredIn_joined {xs xs' : List Entry} (h : List.Forall₂ (Entry.Joined m) xs xs') :
    declaredIn xs' = declaredIn xs := by
  induction h with
  | nil => rfl
  | cons hx hrest ih => rw [declaredIn_cons, declaredIn_cons, hx.declared, ih]

theorem allAdmissible_joined {xs xs' : List Entry} (h : List.Forall₂ (Entry.Joined m) xs xs') {declared : List String}
    (hxs : AllAdmissible declared xs) : AllAdmissible declared xs' := by
  induction h generalizing declared with
  | nil => trivial
  | cons hx hrest ih =>
    obtain ⟨hfirst, hothers⟩ := hxs
    refine ⟨⟨hx.shaped_iff.mpr hfirst.shaped, fun htype => hfirst.type (hx.typeIn_iff.mp htype), ?_⟩, ?_⟩
    · rw [hx.declared]
      exact hfirst.fresh
    · rw [hx.declared]
      exact ih hothers

/-- Declarations that know nothing of each other keep the rules together if each of them do. -/
theorem allAdmissible_apart {xs ys : List Entry} (hxs : AllAdmissible [] xs) (hys : AllAdmissible [] ys)
    (hapart : ∀ name ∈ declaredIn xs, name ∉ declaredIn ys ∧ ∀ y ∈ ys, y.spec.typeName? ≠ some name) :
    AllAdmissible [] (xs ++ ys) := by
  obtain ⟨-, hdistinct, -⟩ := allAdmissible_nil_iff.mp hxs
  obtain ⟨hshaped, hdistinct', hpairs⟩ := allAdmissible_nil_iff.mp hys
  refine allAdmissible_append.mpr ⟨hxs, (allAdmissible_iff hdistinct).mpr ⟨hshaped, ?_, hpairs, ?_⟩⟩
  · rw [List.nodup_append]
    refine ⟨hdistinct, hdistinct', fun name hname name' hname' heq => ?_⟩
    exact (hapart name hname).1 (heq ▸ hname')
  · rintro y hy ⟨name, htype, -, hname⟩
    exact (hapart name hname).2 y hy htype

end RoseLang
