import Mathlib.Data.List.Nodup
import RoseLang.Proofs.Scope.Declarations

/-!
# Objects of declarations

Every declared name makes one object, and the objects stand in the table in the order of the names. In the
scope of the file a name has the first object that was made for it. `Resolver.Mirrors` says so of a resolver
and the names declared so far, and `Resolver.Mirrors.declare` that one more name keeps it so.
-/

namespace RoseLang

/-- A name where it is declared: the spec that declares it, and the keyword and the place in the group of
that spec. -/
structure Site where
  keyword : DeclKeyword
  index : Nat
  decl : NodeId
  name : Ident
  deriving DecidableEq, Repr

/-- The object that is made for the name. -/
def Site.object (id : ObjectId) (site : Site) : Object where
  id := id
  name := site.name.name
  kind := if site.keyword = .varWord then .var else .const
  decl := site.decl
  index := site.index
  pos := site.name.pos

def Entry.sites (x : Entry) : List Site :=
  x.spec.names.map fun name => ⟨x.keyword, x.index, x.spec.id, name⟩

def sitesOf (xs : List Entry) : List Site := xs.flatMap Entry.sites

@[simp] theorem sitesOf_append (xs ys : List Entry) : sitesOf (xs ++ ys) = sitesOf xs ++ sitesOf ys :=
  List.flatMap_append

theorem mem_sitesOf {xs : List Entry} {site : Site} :
    site ∈ sitesOf xs ↔ ∃ x ∈ xs, ∃ n ∈ x.spec.names, ⟨x.keyword, x.index, x.spec.id, n⟩ = site := by
  rw [sitesOf, List.mem_flatMap]
  exact exists_congr fun x => and_congr_right fun _ => List.mem_map

theorem objectKind_eq (keyword : DeclKeyword) :
    Parse.objectKind keyword = if keyword = .varWord then .var else .const := by
  cases keyword <;> rfl

/-! ### The first object of a name -/

/-- The object of the first of these declarations of the name. The blank name has none. -/
def firstObject? (sites : List Site) (name : String) : Option ObjectId :=
  if name = Ident.blank then none else sites.findIdx? (·.name.name = name)

section
variable {sites : List Site} {site : Site} {name : String}

theorem firstObject?_concat_of_ne (h : site.name.name = Ident.blank ∨ site.name.name ≠ name) :
    firstObject? (sites ++ [site]) name = firstObject? sites name := by
  rw [firstObject?, firstObject?]
  split
  · rfl
  · next hblank =>
    have hne : site.name.name ≠ name := by
      rcases h with h | h
      · exact fun heq => hblank (heq ▸ h)
      · exact h
    simp [List.findIdx?_append, hne]

theorem firstObject?_concat_of_some {object : ObjectId} (h : firstObject? sites name = some object) :
    firstObject? (sites ++ [site]) name = some object := by
  rw [firstObject?] at h ⊢
  split at h
  · cases h
  · next hblank => rw [if_neg hblank, List.findIdx?_append, h, Option.some_or]

theorem firstObject?_concat_self (hblank : site.name.name ≠ Ident.blank)
    (h : firstObject? sites site.name.name = none) :
    firstObject? (sites ++ [site]) site.name.name = some sites.length := by
  rw [firstObject?, if_neg hblank] at h ⊢
  simp [List.findIdx?_append, h]

/-- A name that is there already has the same first object after another declaration of it. -/
theorem firstObject?_concat_of_declared {first : ObjectId} (h : firstObject? sites site.name.name = some first)
    (name : String) : firstObject? (sites ++ [site]) name = firstObject? sites name := by
  by_cases hname : site.name.name = name
  · subst hname
    rw [h, firstObject?_concat_of_some h]
  · exact firstObject?_concat_of_ne (.inr hname)

theorem firstObject?_concat_of_new (hblank : site.name.name ≠ Ident.blank)
    (h : firstObject? sites site.name.name = none) (name : String) :
    firstObject? (sites ++ [site]) name =
      (firstObject? sites name).or ([(site.name.name, sites.length)].lookup name) := by
  by_cases hname : site.name.name = name
  · subst hname
    rw [h, firstObject?_concat_self hblank h]
    simp
  · have hother : (name == site.name.name) = false := beq_false_of_ne (Ne.symm hname)
    rw [firstObject?_concat_of_ne (.inr hname)]
    simp [List.lookup_cons, hother]

theorem find?_site_eq (hblank : name ≠ Ident.blank) :
    sites.find? (·.name.name = name) = (firstObject? sites name).bind (sites[·]?) := by
  rw [firstObject?, if_neg hblank, List.find?_eq_bind_findIdx?_getElem?]

theorem firstObject?_eq_some {object : ObjectId} (h : firstObject? sites name = some object) :
    name ≠ Ident.blank ∧ ∃ site, sites[object]? = some site ∧ site.name.name = name := by
  rw [firstObject?] at h
  split at h
  · cases h
  · next hblank =>
    obtain ⟨hlt, hname, -⟩ := List.findIdx?_eq_some_iff_getElem.mp h
    exact ⟨hblank, sites[object], List.getElem?_eq_getElem hlt, of_decide_eq_true hname⟩

theorem firstObject?_eq_none_iff :
    firstObject? sites name = none ↔ name = Ident.blank ∨ ∀ site ∈ sites, site.name.name ≠ name := by
  rw [firstObject?]
  split
  · next hblank => simp [hblank]
  · next hblank => simp [hblank, List.findIdx?_eq_none_iff]

end

/-! ### Names that are declared once -/

theorem declaredIn_eq (xs : List Entry) :
    declaredIn xs = ((sitesOf xs).filter fun site => site.name.name ≠ Ident.blank).map (·.name.name) := by
  have hspec : ∀ x : Entry, x.spec.declared =
      (x.sites.filter fun site => site.name.name ≠ Ident.blank).map (·.name.name) := by
    intro x
    rw [Spec.declared, Entry.sites, List.filter_map, List.filter_map, List.map_map]
    rfl
  rw [declaredIn, sitesOf, List.filter_flatMap, List.map_flatMap]
  exact congrArg (xs.flatMap ·) (funext hspec)

theorem site_eq_of_nodup {xs : List Entry} (h : (declaredIn xs).Nodup) {a b : Site} (ha : a ∈ sitesOf xs)
    (hb : b ∈ sitesOf xs) (hblank : a.name.name ≠ Ident.blank) (hname : b.name.name = a.name.name) : b = a := by
  have hmem : ∀ site ∈ sitesOf xs, site.name.name ≠ Ident.blank →
      site ∈ (sitesOf xs).filter fun site => site.name.name ≠ Ident.blank :=
    fun site hsite hne => List.mem_filter.mpr ⟨hsite, decide_eq_true hne⟩
  rw [declaredIn_eq] at h
  exact List.inj_on_of_nodup_map h (hmem b hb (hname ▸ hblank)) (hmem a ha hblank) hname

/-- Where a name is declared once, its first object is the only one. -/
theorem firstObject?_of_mem {xs : List Entry} (h : (declaredIn xs).Nodup) {site : Site} (hsite : site ∈ sitesOf xs)
    (hblank : site.name.name ≠ Ident.blank) :
    ∃ object, firstObject? (sitesOf xs) site.name.name = some object ∧ (sitesOf xs)[object]? = some site := by
  cases hfirst : firstObject? (sitesOf xs) site.name.name with
  | none =>
    rcases firstObject?_eq_none_iff.mp hfirst with hname | hnew
    · exact absurd hname hblank
    · exact absurd rfl (hnew site hsite)
  | some object =>
    obtain ⟨-, first, hget, hname⟩ := firstObject?_eq_some hfirst
    obtain rfl := site_eq_of_nodup h hsite (List.mem_of_getElem? hget) hblank hname
    exact ⟨object, rfl, hget⟩

/-! ### What a resolver has met -/

/-- What is wrong with declaring the name after the others. -/
def redeclaration? (earlier : List Ident) (i : Ident) : Option Redeclaration :=
  if i.name = Ident.blank then none
  else (earlier.find? (·.name = i.name)).map fun first => ⟨i.name, i.pos, first.pos⟩

theorem redeclaration?_map (sites : List Site) (i : Ident) (hblank : i.name ≠ Ident.blank) :
    redeclaration? (sites.map Site.name) i =
      ((firstObject? sites i.name).bind (sites[·]?)).map fun first => ⟨i.name, i.pos, first.name.pos⟩ := by
  rw [redeclaration?, if_neg hblank, ← find?_site_eq hblank, List.find?_map, Option.map_map]
  rfl

/-- The resolver is in the scope of the file and has met these declarations and no others. -/
structure Resolver.Mirrors (r : Resolver) (sites : List Site) : Prop where
  objects : r.objects = sites.mapIdx Site.object
  bound : ∀ (k : Nat) (site : Site), sites[k]? = some site → site.name.binding = .resolved k
  scopes : ∃ bindings, r.scopes = .ofFile bindings ∧ (bindings.map Prod.fst).Nodup ∧
    ∀ name, bindings.lookup name = firstObject? sites name

namespace Resolver

variable {r : Resolver} {sites : List Site}

theorem Mirrors.congr {r' : Resolver} (h : r.Mirrors sites) (hscopes : r'.scopes = r.scopes)
    (hobjects : r'.objects = r.objects) : r'.Mirrors sites :=
  ⟨hobjects.trans h.objects, h.bound, hscopes ▸ h.scopes⟩

theorem mirrors_openScope : (empty.openScope .file).2.Mirrors [] :=
  ⟨rfl, by simp, [], rfl, List.nodup_nil, fun name => by simp [firstObject?]⟩

theorem Mirrors.length_objects (h : r.Mirrors sites) : r.objects.length = sites.length := by
  rw [h.objects, List.length_mapIdx]

theorem Mirrors.lookup (h : r.Mirrors sites) (name : String) :
    r.scopes.lookup name = firstObject? sites name := by
  obtain ⟨bindings, hscopes, -, hlookup⟩ := h.scopes
  rw [hscopes, ScopeTree.lookup_ofFile, hlookup]

section
variable {keyword : DeclKeyword} {decl : NodeId} {index : Nat} {i : Ident}

/-- The table and the bindings after one more name, whatever that does to the scope. -/
private theorem Mirrors.concat (h : r.Mirrors sites) {bindings : List (String × ObjectId)}
    (hnodup : (bindings.map Prod.fst).Nodup)
    (hlookup : ∀ name, bindings.lookup name =
      firstObject? (sites ++ [⟨keyword, index, decl, { i with binding := .resolved sites.length }⟩]) name) :
    Mirrors
      ⟨.ofFile bindings,
        r.objects ++ [⟨sites.length, i.name, Parse.objectKind keyword, decl, index, i.pos⟩], r.unresolved⟩
      (sites ++ [⟨keyword, index, decl, { i with binding := .resolved sites.length }⟩]) where
  objects := by
    rw [h.objects, List.mapIdx_concat, objectKind_eq]
    rfl
  bound k site hsite := by
    rw [List.getElem?_append] at hsite
    split at hsite
    · exact h.bound k site hsite
    · next hle =>
      rw [List.getElem?_singleton] at hsite
      split at hsite
      · next hk =>
        cases hsite
        have hlast : sites.length = k := by omega
        exact congrArg Binding.resolved hlast
      · cases hsite
  scopes := ⟨bindings, rfl, hnodup, hlookup⟩

/-- A further name makes the next object, and is reported if the scope has it already. -/
theorem Mirrors.declare (h : r.Mirrors sites) (keyword : DeclKeyword) (decl : NodeId) (index : Nat) (i : Ident) :
    (r.declare i (Parse.objectKind keyword) decl index).1 = { i with binding := .resolved sites.length } ∧
      (r.declare i (Parse.objectKind keyword) decl index).2.1 = redeclaration? (sites.map Site.name) i ∧
      (r.declare i (Parse.objectKind keyword) decl index).2.2.Mirrors
        (sites ++ [⟨keyword, index, decl, { i with binding := .resolved sites.length }⟩]) := by
  obtain ⟨bindings, hscopes, hnodup, hlookup⟩ := h.scopes
  have hlength := h.length_objects
  rw [Resolver.declare, hlength, hscopes]
  by_cases hblank : i.name = Ident.blank
  · have hisBlank : i.isBlank = true := by simp [Ident.isBlank, hblank]
    simp only [hisBlank, ↓reduceIte]
    refine ⟨trivial, by rw [redeclaration?, if_pos hblank], h.concat hnodup fun name => ?_⟩
    rw [hlookup, firstObject?_concat_of_ne (.inl hblank)]
  · have hisBlank : i.isBlank = false := by simp [Ident.isBlank, hblank]
    simp only [hisBlank, Bool.false_eq_true, ↓reduceIte]
    rw [redeclaration?_map sites i hblank]
    have hfirst := hlookup i.name
    cases hfound : firstObject? sites i.name with
    | some first =>
      rw [ScopeTree.insert_ofFile_of_some (hfirst.trans hfound)]
      obtain ⟨-, site, hsite, -⟩ := firstObject?_eq_some hfound
      refine ⟨trivial, ?_, h.concat hnodup fun name => ?_⟩
      · obtain ⟨hlt, -⟩ := List.getElem?_eq_some_iff.mp hsite
        have hobject : r.objects[first]? = some (site.object first) := by
          rw [h.objects, List.getElem?_mapIdx, hsite, Option.map_some]
        rw [Option.map_some, Option.bind_some, hsite, Option.map_some, object?,
          List.getElem?_append_left (hlength ▸ hlt), hobject]
        rfl
      · rw [hlookup, firstObject?_concat_of_declared hfound]
    | none =>
      rw [ScopeTree.insert_ofFile_of_none (hfirst.trans hfound)]
      have hnew := lookup_eq_none_iff_not_mem.mp (hfirst.trans hfound)
      refine ⟨trivial, rfl, h.concat ?_ fun name => ?_⟩
      · rw [List.map_append, List.nodup_append]
        refine ⟨hnodup, by simp, fun a ha b hb heq => ?_⟩
        obtain rfl : b = i.name := List.mem_singleton.mp hb
        exact hnew (heq ▸ ha)
      · rw [List.lookup_append, hlookup, firstObject?_concat_of_new hblank hfound]

end

end Resolver

end RoseLang
