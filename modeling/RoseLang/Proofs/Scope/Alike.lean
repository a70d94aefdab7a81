import RoseLang.Proofs.Syntax.Alike
import RoseLang.Scope.Resolver

/-!
# Resolvers that differ in positions only

Names are declared and looked up without regard to where they stand: two resolvers that are alike stay so, and
what they give for names that are alike is so too.
-/

namespace RoseLang

/-- Names are bound to objects with numbers below `n` only. -/
def ScopeTree.Below (t : ScopeTree) (n : Nat) : Prop := ∀ scope ∈ t.scopes, ∀ b ∈ scope.bindings, b.2 < n

namespace ScopeTree.Below

variable {t : ScopeTree} {n : Nat}

theorem mono {m : Nat} (h : t.Below n) (hle : n ≤ m) : t.Below m :=
  fun scope hscope b hb => Nat.lt_of_lt_of_le (h scope hscope b hb) hle

theorem push (h : t.Below n) (kind : ScopeKind) : (t.push kind).2.Below n := by
  intro scope hscope
  rcases List.mem_append.mp hscope with hscope | hscope
  · exact h scope hscope
  · rw [List.mem_singleton.mp hscope]
    exact fun b hb => absurd hb List.not_mem_nil

theorem lookup {scope : Scope} (h : t.Below n) (hscope : scope ∈ t.scopes) {name : String} {object : ObjectId}
    (hlookup : scope.lookup name = some object) : object < n := by
  obtain ⟨before, after, hbindings, -⟩ := List.lookup_eq_some_iff.mp hlookup
  have hmem : (name, object) ∈ scope.bindings := hbindings ▸ List.mem_append_cons_self
  exact h scope hscope (name, object) hmem

theorem insert (h : t.Below n) (name : String) :
    (∀ earlier ∈ (t.insert name n).1, earlier < n) ∧ (t.insert name n).2.Below (n + 1) := by
  have hmono := h.mono (Nat.le_succ n)
  rw [ScopeTree.insert]
  split
  · exact ⟨by simp, hmono⟩
  · next scope hcurrent =>
    obtain ⟨id, -, hget⟩ := Option.bind_eq_some_iff.mp hcurrent
    have hscope : scope ∈ t.scopes := List.mem_of_getElem? hget
    split
    · next earlier hlookup => exact ⟨fun e he => Option.mem_some.mp he ▸ h.lookup hscope hlookup, hmono⟩
    · refine ⟨by simp, fun other hother b hb => ?_⟩
      rcases List.mem_or_eq_of_mem_set hother with hother | rfl
      · exact hmono other hother b hb
      · rcases List.mem_append.mp hb with hb | hb
        · exact hmono scope hscope b hb
        · rw [List.mem_singleton.mp hb]
          exact Nat.lt_succ_self n

end ScopeTree.Below

section
variable (P : Pos → Pos → Prop)

structure Object.Alike (o o' : Object) : Prop where
  id : o.id = o'.id
  name : o.name = o'.name
  kind : o.kind = o'.kind
  decl : o.decl = o'.decl
  index : o.index = o'.index
  pos : P o.pos o'.pos

structure Redeclaration.Alike (r r' : Redeclaration) : Prop where
  name : r.name = r'.name
  pos : P r.pos r'.pos
  previous : P r.previous r'.previous

structure Resolver.Alike (r r' : Resolver) : Prop where
  scopes : r.scopes = r'.scopes
  below : r.scopes.Below r.objects.length
  objects : List.Forall₂ (Object.Alike P) r.objects r'.objects
  unresolved : List.Forall₂ (Ident.Alike P) r.unresolved r'.unresolved

end

theorem rel_getElem? {α β : Type} {R : α → β → Prop} {as : List α} {bs : List β} (h : List.Forall₂ R as bs)
    (n : Nat) : Option.Rel R as[n]? bs[n]? := by
  induction h generalizing n with
  | nil => exact .none
  | cons hab _ ih =>
    cases n with
    | zero => exact .some hab
    | succ n => exact ih n

variable {P : Pos → Pos → Prop} {r r' : Resolver} {i i' : Ident}

theorem Ident.Alike.isBlank (h : i.Alike P i') : i.isBlank = i'.isBlank := by
  rw [Ident.isBlank, Ident.isBlank, h.name]

theorem Ident.Alike.bind (h : i.Alike P i') (binding : Binding) :
    Ident.Alike P { i with binding } { i' with binding } :=
  ⟨h.id, h.pos, h.name, rfl⟩

theorem getD_pos {os os' : List Object} (h : List.Forall₂ (Object.Alike P) os os') {n : Nat} (hn : n < os.length) :
    P ((os[n]?.map Object.pos).getD .none) ((os'[n]?.map Object.pos).getD .none) := by
  rw [List.getElem?_eq_getElem hn, List.getElem?_eq_getElem (h.length_eq ▸ hn)]
  exact (h.get hn (h.length_eq ▸ hn)).pos

namespace Resolver.Alike

theorem openScope (h : r.Alike P r') (kind : ScopeKind) :
    Resolver.Alike P (r.openScope kind).2 (r'.openScope kind).2 :=
  ⟨by rw [Resolver.openScope, Resolver.openScope, h.scopes], h.below.push kind, h.objects, h.unresolved⟩

theorem resolve (h : r.Alike P r') (hi : i.Alike P i') (collect : Bool) :
    (r.resolve i collect).1.Alike P (r'.resolve i' collect).1 ∧
      (r.resolve i collect).2.1 = (r'.resolve i' collect).2.1 ∧
      (r.resolve i collect).2.2.Alike P (r'.resolve i' collect).2.2 := by
  have hlookup : r'.scopes.lookup i'.name = r.scopes.lookup i.name := by rw [← h.scopes, ← hi.name]
  rw [Resolver.resolve, Resolver.resolve, ← hi.isBlank, hlookup]
  by_cases hblank : i.isBlank = true
  · rw [if_pos hblank, if_pos hblank]
    exact ⟨hi, rfl, h⟩
  · rw [if_neg hblank, if_neg hblank]
    cases r.scopes.lookup i.name with
    | some object => exact ⟨hi.bind _, rfl, h⟩
    | none =>
      cases collect with
      | true => exact ⟨hi.bind _, rfl, { h with unresolved := List.rel_append h.unresolved (.cons (hi.bind _) .nil) }⟩
      | false => exact ⟨hi, rfl, h⟩

theorem declare (h : r.Alike P r') (hi : i.Alike P i') (kind : ObjectKind) (decl : NodeId) (index : Nat) :
    (r.declare i kind decl index).1.Alike P (r'.declare i' kind decl index).1 ∧
      Option.Rel (Redeclaration.Alike P) (r.declare i kind decl index).2.1 (r'.declare i' kind decl index).2.1 ∧
      (r.declare i kind decl index).2.2.Alike P (r'.declare i' kind decl index).2.2 := by
  let object : Object := ⟨r.objects.length, i.name, kind, decl, index, i.pos⟩
  let object' : Object := ⟨r.objects.length, i'.name, kind, decl, index, i'.pos⟩
  have hobjects : List.Forall₂ (Object.Alike P) (r.objects ++ [object]) (r'.objects ++ [object']) :=
    List.rel_append h.objects (.cons ⟨rfl, hi.name, rfl, rfl, rfl, hi.pos⟩ .nil)
  have hlength : (r.objects ++ [object]).length = r.objects.length + 1 := by simp
  have hinsert : r'.scopes.insert i'.name r.objects.length = r.scopes.insert i.name r.objects.length := by
    rw [← h.scopes, ← hi.name]
  obtain ⟨hearlier, hbelow⟩ := h.below.insert i.name
  rw [Resolver.declare, Resolver.declare, ← hi.isBlank, ← h.objects.length_eq]
  by_cases hblank : i.isBlank = true
  · rw [if_pos hblank, if_pos hblank]
    exact ⟨hi.bind _, .none, h.scopes, hlength ▸ h.below.mono (Nat.le_succ _), hobjects, h.unresolved⟩
  · rw [if_neg hblank, if_neg hblank]
    dsimp only
    rw [hinsert]
    generalize r.scopes.insert i.name r.objects.length = inserted at hearlier hbelow
    refine ⟨hi.bind _, ?_, ⟨rfl, hlength ▸ hbelow, hobjects, h.unresolved⟩⟩
    cases hfound : inserted.1 with
    | none => exact .none
    | some first =>
      have hfirst : first < (r.objects ++ [object]).length := by
        rw [hlength]
        exact Nat.lt_succ_of_lt (hearlier first (hfound ▸ rfl))
      exact .some ⟨hi.name, hi.pos, getD_pos hobjects hfirst⟩

end Resolver.Alike

end RoseLang
