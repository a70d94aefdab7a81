import RoseLang.Parse.State
import RoseLang.Proofs.Scope.Objects

/-!
# Complaints about declarations

What is wrong with the declarations of a tree, whoever reads them: `complaints` goes through the specs in
order and needs to know of those before only their names. A spec may have a bad type, one fault of its shape,
and any number of names that were declared before.
-/

namespace RoseLang

open Parse (Finding)

/-- A type that is a name declared before. The blank name and the built-in types cannot be. -/
def Expr.typeComplaint? (earlier : List Ident) (type : Expr) : Option Finding :=
  type.bare.ident?.bind fun i =>
    if i.name ≠ Ident.blank ∧ i.name ∉ Parse.builtinTypes ∧ ∃ first ∈ earlier, first.name = i.name then
      some ⟨i.pos, .notType i.name⟩
    else none

theorem Expr.typeComplaint?_ident (earlier : List Ident) (id : NodeId) (i : Ident) :
    (ident id i).typeComplaint? earlier =
      if i.name ≠ Ident.blank ∧ i.name ∉ Parse.builtinTypes ∧ ∃ first ∈ earlier, first.name = i.name then
        some ⟨i.pos, .notType i.name⟩
      else none := rfl

/-- Missing values are missed at the first name, superfluous ones found at the first of them. Without any
value a variable may have its type only, and a constant may have nothing, if it is not the first of its
group. -/
def Entry.shapeComplaint? (x : Entry) : Option Finding :=
  if x.spec.values = [] then
    match x.keyword, x.spec.type with
    | .varWord, none => some ⟨x.spec.pos, .missingTypeOrValue⟩
    | .varWord, some _ => none
    | .letWord, _ => some ⟨x.spec.pos, .missingValue⟩
    | .constWord, none => if x.index = 0 then some ⟨x.spec.pos, .missingConstant⟩ else none
    | .constWord, some _ => some ⟨x.spec.pos, .missingConstant⟩
  else if x.spec.values.length < x.spec.names.length then
    match x.keyword with
    | .constWord => some ⟨x.spec.pos, .missingConstant⟩
    | .letWord | .varWord => some ⟨x.spec.pos, .missingValue⟩
  else x.spec.values[x.spec.names.length]?.map fun surplus => ⟨surplus.pos, .surplusValue⟩

/-- Names that were declared before, or earlier in the same list. -/
def redeclarations (earlier : List Ident) : List Ident → List Finding
  | [] => []
  | i :: names =>
    ((redeclaration? earlier i).map fun r => ⟨r.pos, .redeclared r⟩).toList ++
      redeclarations (earlier ++ [i]) names

def Entry.complaints (earlier : List Ident) (x : Entry) : List Finding :=
  (x.spec.type.bind (Expr.typeComplaint? earlier)).toList ++ x.shapeComplaint?.toList ++
    redeclarations earlier x.spec.names

/-- All that is wrong with the specs where the given names have been declared. -/
def complaints (earlier : List Ident) : List Entry → List Finding
  | [] => []
  | x :: xs => x.complaints earlier ++ complaints (earlier ++ x.spec.names) xs

theorem map_name_sites (x : Entry) : x.sites.map Site.name = x.spec.names := by
  rw [Entry.sites, List.map_map]
  exact List.map_id _

theorem complaints_append (earlier : List Ident) (xs ys : List Entry) :
    complaints earlier (xs ++ ys) =
      complaints earlier xs ++ complaints (earlier ++ (sitesOf xs).map Site.name) ys := by
  induction xs generalizing earlier with
  | nil => simp [complaints, sitesOf]
  | cons x xs ih =>
    have hnames : (sitesOf (x :: xs)).map Site.name = x.spec.names ++ (sitesOf xs).map Site.name := by
      rw [sitesOf, List.flatMap_cons, List.map_append, map_name_sites]
      rfl
    rw [List.cons_append, complaints, complaints, ih, hnames, List.append_assoc, List.append_assoc]

theorem complaints_single (earlier : List Ident) (x : Entry) :
    complaints earlier [x] = x.complaints earlier := List.append_nil _

/-- The shape is checked as it should be. -/
theorem map_shapeFault? (x : Entry) :
    (Parse.shapeFault? x.keyword x.index x.spec.pos x.spec.names x.spec.type x.spec.values).map
      (fun f => ⟨f.1, f.2⟩) = x.shapeComplaint? := by
  rw [Parse.shapeFault?.eq_def, Entry.shapeComplaint?]
  simp only [List.isEmpty_iff]
  split
  · cases x.keyword with
    | varWord => cases x.spec.type <;> rfl
    | letWord => rfl
    | constWord =>
      cases x.spec.type with
      | none => by_cases hindex : x.index = 0 <;> simp [hindex]
      | some type => simp
  · split
    · cases x.keyword <;> rfl
    · cases x.spec.values[x.spec.names.length]? <;> rfl

theorem Entry.kind_shapeComplaint? (x : Entry) : ∀ f ∈ x.shapeComplaint?, f.fault.kind = .semantic := by
  intro f hf
  rw [shapeComplaint?] at hf
  split at hf
  · split at hf
    · cases hf
      rfl
    · cases hf
    · cases hf
      rfl
    · split at hf
      · cases hf
        rfl
      · cases hf
    · cases hf
      rfl
  · split at hf
    · split at hf
      all_goals
        cases hf
        rfl
    · obtain ⟨surplus, -, rfl⟩ := Option.map_eq_some_iff.mp hf
      rfl

/-! ### Where nothing is wrong -/

theorem redeclarations_eq_nil {earlier names : List Ident}
    (h : (((earlier ++ names).map Ident.name).filter (· ≠ Ident.blank)).Nodup) : redeclarations earlier names = [] := by
  induction names generalizing earlier with
  | nil => rfl
  | cons i names ih =>
    have hnone : redeclaration? earlier i = none := by
      rw [redeclaration?]
      split
      · rfl
      · next hblank =>
        rw [List.map_append, List.filter_append, List.nodup_append] at h
        obtain ⟨-, -, hapart⟩ := h
        rw [Option.map_eq_none_iff, List.find?_eq_none]
        intro first hfirst hname
        have hname : first.name = i.name := of_decide_eq_true hname
        refine hapart first.name (List.mem_filter.mpr ⟨List.mem_map_of_mem hfirst, ?_⟩) i.name
          (List.mem_filter.mpr ⟨List.mem_cons_self, ?_⟩) hname
        · exact decide_eq_true (hname ▸ hblank)
        · exact decide_eq_true hblank
    rw [redeclarations, hnone]
    refine ih ?_
    rwa [List.append_assoc]

theorem Entry.Admissible.complaints {earlier : List Ident} {x : Entry}
    (h : x.Admissible ((earlier.map Ident.name).filter (· ≠ Ident.blank))) : x.complaints earlier = [] := by
  have htype : x.spec.type.bind (Expr.typeComplaint? earlier) = none := by
    rw [Option.bind_eq_none_iff]
    intro type htype
    rw [Expr.typeComplaint?, Option.bind_eq_none_iff]
    intro i hi
    refine if_neg ?_
    rintro ⟨hblank, hbuiltin, first, hfirst, hname⟩
    refine h.type ⟨i.name, ?_, hbuiltin, List.mem_filter.mpr ⟨?_, decide_eq_true hblank⟩⟩
    · rw [Spec.typeName?, htype, Option.bind_some, hi]
      rfl
    · exact hname ▸ List.mem_map_of_mem hfirst
  have hshape : x.shapeComplaint? = none := by
    rw [← map_shapeFault?, Parse.shapeFault?_eq_none_iff.mpr h.shaped]
    rfl
  have hfresh : redeclarations earlier x.spec.names = [] := by
    refine redeclarations_eq_nil ?_
    rw [List.map_append, List.filter_append]
    exact h.fresh
  rw [Entry.complaints, htype, hshape, hfresh]
  rfl

/-- Of declarations that keep the rules there is nothing to complain. -/
theorem complaints_eq_nil {earlier : List Ident} {xs : List Entry}
    (h : AllAdmissible ((earlier.map Ident.name).filter (· ≠ Ident.blank)) xs) : complaints earlier xs = [] := by
  induction xs generalizing earlier with
  | nil => rfl
  | cons x xs ih =>
    obtain ⟨hx, hxs⟩ := h
    rw [complaints, hx.complaints, List.nil_append]
    refine ih ?_
    rw [List.map_append, List.filter_append]
    exact hxs

end RoseLang
