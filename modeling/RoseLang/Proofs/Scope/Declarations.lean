import RoseLang.Parse.Stmt

/-!
# Declarations in order

The rules for the declarations of a file, beyond its grammar: each spec has the type and the values that
its keyword asks for, no name is declared twice, and no type is a name declared before. `AllAdmissible`
states them spec by spec, as a resolver meets them, and `allAdmissible_nil_iff` for the file as a whole.
-/

namespace RoseLang

/-- A spec with its keyword and its place in its group. -/
structure Entry where
  keyword : DeclKeyword
  index : Nat
  spec : Spec
  deriving DecidableEq, Repr

/-- Specs of one group, from the one at `index` on. -/
def entriesFrom (keyword : DeclKeyword) (index : Nat) (specs : List Spec) : List Entry :=
  (specs.zipIdx index).map fun place => ⟨keyword, place.2, place.1⟩

theorem entriesFrom_cons (keyword : DeclKeyword) (index : Nat) (spec : Spec) (specs : List Spec) :
    entriesFrom keyword index (spec :: specs) =
      ⟨keyword, index, spec⟩ :: entriesFrom keyword (index + 1) specs := rfl

def Decl.entries : Decl → List Entry
  | .bad .. => []
  | .specs _ keyword _ _ entries _ => entriesFrom keyword 0 entries

def Stmt.entries : Stmt → List Entry
  | .decl _ d => d.entries
  | _ => []

namespace Spec

/-- The names that the spec declares. The blank name declares nothing. -/
def declared (s : Spec) : List String := (s.names.map Ident.name).filter (· ≠ Ident.blank)

/-- The name inside the type. -/
def typeName? (s : Spec) : Option String := (s.type.bind fun type => type.bare.ident?).map Ident.name

/-- Whether the type is one of the given names and not built in. -/
def TypeIn (declared : List String) (s : Spec) : Prop :=
  ∃ name, s.typeName? = some name ∧ name ∉ Parse.builtinTypes ∧ name ∈ declared

end Spec

namespace Entry

/-- Whether the spec has the type and the values that its keyword asks for: as many values as names, or
none if a variable has a type or a constant, not the first of its group, has no type either. -/
def Shaped (x : Entry) : Prop :=
  if x.spec.values = [] then
    match x.keyword with
    | .varWord => x.spec.type ≠ none
    | .letWord => False
    | .constWord => x.index ≠ 0 ∧ x.spec.type = none
  else x.spec.values.length = x.spec.names.length

/-- Whether the spec may follow where the given names have been declared. -/
structure Admissible (declared : List String) (x : Entry) : Prop where
  shaped : x.Shaped
  type : ¬ x.spec.TypeIn declared
  fresh : (declared ++ x.spec.declared).Nodup

end Entry

/-- Whether the specs may follow, one after the other, where the given names have been declared. -/
def AllAdmissible (declared : List String) : List Entry → Prop
  | [] => True
  | x :: xs => x.Admissible declared ∧ AllAdmissible (declared ++ x.spec.declared) xs

def declaredIn (xs : List Entry) : List String := xs.flatMap fun x => x.spec.declared

theorem declaredIn_cons (x : Entry) (xs : List Entry) :
    declaredIn (x :: xs) = x.spec.declared ++ declaredIn xs := List.flatMap_cons

theorem allAdmissible_append {declared : List String} {xs ys : List Entry} :
    AllAdmissible declared (xs ++ ys) ↔
      AllAdmissible declared xs ∧ AllAdmissible (declared ++ declaredIn xs) ys := by
  induction xs generalizing declared with
  | nil => simp [AllAdmissible, declaredIn]
  | cons x xs ih =>
    rw [List.cons_append, AllAdmissible, AllAdmissible, ih, and_assoc, declaredIn_cons, List.append_assoc]

theorem typeIn_append {declared declared' : List String} {s : Spec} :
    s.TypeIn (declared ++ declared') ↔ s.TypeIn declared ∨ s.TypeIn declared' := by
  constructor
  · rintro ⟨name, htype, hbuiltin, hmem⟩
    rcases List.mem_append.mp hmem with hmem | hmem
    · exact .inl ⟨name, htype, hbuiltin, hmem⟩
    · exact .inr ⟨name, htype, hbuiltin, hmem⟩
  · rintro (⟨name, htype, hbuiltin, hmem⟩ | ⟨name, htype, hbuiltin, hmem⟩)
    · exact ⟨name, htype, hbuiltin, List.mem_append_left _ hmem⟩
    · exact ⟨name, htype, hbuiltin, List.mem_append_right _ hmem⟩

theorem allAdmissible_iff {declared : List String} {xs : List Entry} (hnodup : declared.Nodup) :
    AllAdmissible declared xs ↔
      (∀ x ∈ xs, x.Shaped) ∧ (declared ++ declaredIn xs).Nodup ∧
        (xs.Pairwise fun earlier later => ¬ later.spec.TypeIn earlier.spec.declared) ∧
        ∀ x ∈ xs, ¬ x.spec.TypeIn declared := by
  induction xs generalizing declared with
  | nil => simpa [AllAdmissible, declaredIn] using hnodup
  | cons x xs ih =>
    rw [AllAdmissible, declaredIn_cons, ← List.append_assoc, List.pairwise_cons, List.forall_mem_cons,
      List.forall_mem_cons]
    constructor
    · rintro ⟨hx, hxs⟩
      obtain ⟨hshaped, hdistinct, hpairs, htypes⟩ := (ih hx.fresh).mp hxs
      refine ⟨⟨hx.shaped, hshaped⟩, hdistinct, ⟨fun y hy h => ?_, hpairs⟩, hx.type, fun y hy h => ?_⟩
      · exact htypes y hy (typeIn_append.mpr (.inr h))
      · exact htypes y hy (typeIn_append.mpr (.inl h))
    · rintro ⟨⟨hshaped, hshapeds⟩, hdistinct, ⟨hlater, hpairs⟩, htype, htypes⟩
      have hfresh : (declared ++ x.spec.declared).Nodup := (List.nodup_append.mp hdistinct).1
      refine ⟨⟨hshaped, htype, hfresh⟩, (ih hfresh).mpr ⟨hshapeds, hdistinct, hpairs, fun y hy h => ?_⟩⟩
      rcases typeIn_append.mp h with h | h
      · exact htypes y hy h
      · exact hlater y hy h

/-- The rules for a whole file. -/
theorem allAdmissible_nil_iff {xs : List Entry} :
    AllAdmissible [] xs ↔
      (∀ x ∈ xs, x.Shaped) ∧ (declaredIn xs).Nodup ∧
        xs.Pairwise fun earlier later => ¬ later.spec.TypeIn earlier.spec.declared := by
  rw [allAdmissible_iff List.nodup_nil, List.nil_append]
  constructor
  · rintro ⟨hshaped, hdistinct, hpairs, -⟩
    exact ⟨hshaped, hdistinct, hpairs⟩
  · rintro ⟨hshaped, hdistinct, hpairs⟩
    refine ⟨hshaped, hdistinct, hpairs, ?_⟩
    rintro x - ⟨name, -, -, hmem⟩
    cases hmem

theorem Parse.shapeFault?_eq_none_iff {x : Entry} {pos : Pos} :
    Parse.shapeFault? x.keyword x.index pos x.spec.names x.spec.type x.spec.values = none ↔ x.Shaped := by
  rw [Parse.shapeFault?.eq_def, Entry.Shaped]
  by_cases hvalues : x.spec.values = []
  · simp only [hvalues, List.isEmpty_nil, ↓reduceIte]
    cases x.keyword with
    | varWord => simp [Option.ne_none_iff_isSome]
    | letWord => simp
    | constWord => simp
  · simp only [List.isEmpty_iff, hvalues, ↓reduceIte]
    by_cases hlt : x.spec.values.length < x.spec.names.length
    · simp only [hlt, ↓reduceIte, reduceCtorEq, false_iff]
      omega
    · simp only [hlt, ↓reduceIte]
      cases hsurplus : x.spec.values[x.spec.names.length]? with
      | none =>
        have := List.getElem?_eq_none_iff.mp hsurplus
        simp only [true_iff]
        omega
      | some surplus =>
        obtain ⟨hlength, -⟩ := List.getElem?_eq_some_iff.mp hsurplus
        simp only [reduceCtorEq, false_iff]
        omega

/-! ### What a resolver knows -/

/-- The scopes while a file is parsed: only that of the file, which is open. -/
def ScopeTree.ofFile (bindings : List (String × ObjectId)) : ScopeTree :=
  ⟨[⟨0, none, .file, bindings⟩], [0]⟩

namespace ScopeTree

variable {bindings : List (String × ObjectId)} {name : String} {object : ObjectId}

theorem lookup_ofFile : (ofFile bindings).lookup name = bindings.lookup name := by
  simp [ofFile, lookup, get?, Scope.lookup]

theorem insert_ofFile_of_some {earlier : ObjectId} (h : bindings.lookup name = some earlier) :
    (ofFile bindings).insert name object = (some earlier, ofFile bindings) := by
  simp [ofFile, insert, current, get?, Scope.lookup, h]

theorem insert_ofFile_of_none (h : bindings.lookup name = none) :
    (ofFile bindings).insert name object = (none, ofFile (bindings ++ [(name, object)])) := by
  simp [ofFile, insert, current, get?, Scope.lookup, h]

end ScopeTree

theorem lookup_eq_none_iff_not_mem {bindings : List (String × ObjectId)} {name : String} :
    bindings.lookup name = none ↔ name ∉ bindings.map Prod.fst := by
  rw [List.lookup_eq_none_iff]
  constructor
  · intro h hmem
    obtain ⟨binding, hbinding, rfl⟩ := List.mem_map.mp hmem
    simpa using h binding hbinding
  · intro h binding hbinding
    rw [bne_iff_ne]
    rintro rfl
    exact h (List.mem_map_of_mem hbinding)

/-- The resolver is in the scope of the file, which has exactly the given names. -/
structure Resolver.Declares (r : Resolver) (declared : List String) : Prop where
  scopes : ∃ bindings, r.scopes = .ofFile bindings ∧ bindings.map Prod.fst = declared
  blank : Ident.blank ∉ declared
  nodup : declared.Nodup

namespace Resolver

variable {r : Resolver} {declared : List String} {i : Ident}

theorem Declares.congr {r' : Resolver} (h : r.Declares declared) (hscopes : r'.scopes = r.scopes) :
    r'.Declares declared := by
  obtain ⟨hs, hblank, hnodup⟩ := h
  exact ⟨hscopes ▸ hs, hblank, hnodup⟩

/-- The names of the scope can be read off it. -/
theorem Declares.unique {declared' : List String} (h : r.Declares declared) (h' : r.Declares declared') :
    declared' = declared := by
  obtain ⟨⟨bindings, hscopes, rfl⟩, -, -⟩ := h
  obtain ⟨⟨bindings', hscopes', rfl⟩, -, -⟩ := h'
  rw [hscopes, ScopeTree.ofFile, ScopeTree.ofFile] at hscopes'
  cases hscopes'
  rfl

theorem declares_openScope : (empty.openScope .file).2.Declares [] :=
  ⟨⟨[], rfl, rfl⟩, List.not_mem_nil, List.nodup_nil⟩

theorem Declares.lookup_eq_none_iff {name : String} (h : r.Declares declared) :
    r.scopes.lookup name = none ↔ name ∉ declared := by
  obtain ⟨⟨bindings, hscopes, rfl⟩, -, -⟩ := h
  rw [hscopes, ScopeTree.lookup_ofFile, lookup_eq_none_iff_not_mem]

theorem scopes_resolve (r : Resolver) (i : Ident) (collect : Bool) :
    (r.resolve i collect).2.2.scopes = r.scopes := by
  rw [resolve]
  split
  · rfl
  · split
    · rfl
    · split <;> rfl

theorem ident_resolve (r : Resolver) (i : Ident) (collect : Bool) :
    ∃ binding, (r.resolve i collect).1 = { i with binding } := by
  rw [resolve]
  split
  · exact ⟨i.binding, rfl⟩
  · split
    · exact ⟨_, rfl⟩
    · split
      · exact ⟨_, rfl⟩
      · exact ⟨i.binding, rfl⟩

theorem Declares.resolve_eq_none_iff (collect : Bool) (h : r.Declares declared) :
    (r.resolve i collect).2.1 = none ↔ i.name ∉ declared := by
  rw [resolve]
  by_cases hblank : i.isBlank = true
  · have hname : i.name = Ident.blank := by simpa [Ident.isBlank] using hblank
    simpa [hblank, hname] using h.blank
  · rw [← h.lookup_eq_none_iff]
    simp only [hblank, Bool.false_eq_true, ↓reduceIte]
    cases hlookup : r.scopes.lookup i.name with
    | none => cases collect <;> simp
    | some object => simp

section
variable {kind : ObjectKind} {decl : NodeId} {index : Nat}

theorem ident_declare (r : Resolver) (i : Ident) :
    ∃ binding, (r.declare i kind decl index).1 = { i with binding } := by
  rw [declare]
  dsimp only
  split <;> exact ⟨_, rfl⟩

/-- A name is declared without a report exactly if it is new, and then it is known. -/
theorem Declares.declare (h : r.Declares declared) :
    ((r.declare i kind decl index).2.1 = none ↔ i.name = Ident.blank ∨ i.name ∉ declared) ∧
      ((r.declare i kind decl index).2.1 = none →
        (r.declare i kind decl index).2.2.Declares (declared ++ [i.name].filter (· ≠ Ident.blank))) := by
  obtain ⟨⟨bindings, hscopes, rfl⟩, hnot, hnodup⟩ := h
  rw [Resolver.declare]
  by_cases hblank : i.name = Ident.blank
  · have hisBlank : i.isBlank = true := by simp [Ident.isBlank, hblank]
    simp only [hisBlank, ↓reduceIte, hblank, true_or, ne_eq, not_true_eq_false, decide_false,
      Bool.false_eq_true, not_false_eq_true, List.filter_cons_of_neg, List.filter_nil, List.append_nil,
      forall_const, true_and]
    exact ⟨⟨bindings, hscopes, rfl⟩, hnot, hnodup⟩
  · have hisBlank : i.isBlank = false := by simp [Ident.isBlank, hblank]
    simp only [hisBlank, Bool.false_eq_true, ↓reduceIte, hblank, false_or, hscopes]
    rw [← lookup_eq_none_iff_not_mem]
    cases hlookup : bindings.lookup i.name with
    | some earlier => simp [ScopeTree.insert_ofFile_of_some hlookup]
    | none =>
      simp only [ScopeTree.insert_ofFile_of_none hlookup, Option.map_none, true_and, forall_const]
      refine ⟨⟨_, rfl, ?_⟩, ?_, ?_⟩
      · simp [hblank]
      · simp [hnot, hblank, Ne.symm hblank]
      · have hnew := lookup_eq_none_iff_not_mem.mp hlookup
        rw [List.filter_cons_of_pos (by simpa using hblank), List.filter_nil, List.nodup_append]
        refine ⟨hnodup, by simp, fun a ha b hb heq => ?_⟩
        obtain rfl := List.mem_singleton.mp hb
        exact hnew (heq ▸ ha)

end

end Resolver

end RoseLang
