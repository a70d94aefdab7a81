import Mathlib.Data.Finmap
import RoseLang.Proofs.Run
import RoseLang.Proofs.Scope.Declarations
import RoseLang.Proofs.Scope.Nesting

/-!
# The resolver as a stack of name tables

Scopes are never forgotten: they stay in one list, each with the number of the scope around it. Asked in
any order, and also when more scopes are closed than were opened, a resolver answers as if it kept
nothing but a stack of finite maps from names to objects. What relates the two is `Shows`; it holds at the
start and after every call.
-/

namespace RoseLang

/-! ### The reference -/

namespace Resolver

/-- What can be asked of a resolver. -/
inductive Call where
  | openScope (kind : ScopeKind)
  | closeScope
  | declare (ident : Ident) (kind : ObjectKind) (decl : NodeId) (index : Nat)
  | resolve (ident : Ident) (collect : Bool)
  | lookup (name : String)
  deriving DecidableEq, Repr

/-- What is answered: identifiers as they are bound afterwards, and a name declared twice with the position of its
first declaration, if it has one. -/
inductive Answer where
  | opened (id : ScopeId)
  | closed
  | declared (ident : Ident) (report : Option (Redeclaration × Option Pos))
  | resolved (ident : Ident) (found : Option ObjectId)
  | found (object : Option Object)
  deriving DecidableEq, Repr

def call (r : Resolver) : Call → Answer × Resolver
  | .openScope kind =>
    let (id, r) := r.openScope kind
    (.opened id, r)
  | .closeScope => (.closed, r.closeScope)
  | .declare ident kind decl index =>
    let (ident, report, r) := r.declare ident kind decl index
    (.declared ident (report.map fun report => (report, report.previous?)), r)
  | .resolve ident collect =>
    let (ident, found, r) := r.resolve ident collect
    (.resolved ident found, r)
  | .lookup name => (.found (r.lookup name), r)

end Resolver

open Resolver (Call Answer)

/-- The names of a scope with the first object declared under each. -/
abbrev Frame := Finmap fun _ : String => Object

/-- Enters the object under its name, unless there is an earlier one or the name is blank. -/
def Frame.enter (frame : Frame) (object : Object) : Frame :=
  if object.name = Ident.blank ∨ (frame.lookup object.name).isSome then frame
  else frame.insert object.name object

/-- A stack of name tables, the innermost first, besides the objects made and the number of scopes opened so far. -/
structure Tables where
  frames : List Frame
  objects : List Object
  opened : Nat

namespace Tables

def empty : Tables := ⟨[], [], 0⟩

def lookup (t : Tables) (name : String) : Option Object := t.frames.findSome? (·.lookup name)

/-- The object declared first under the name in the innermost table. -/
def first? (t : Tables) (name : String) : Option Object :=
  if name = Ident.blank then none else t.frames.head?.bind (·.lookup name)

def call (t : Tables) : Call → Answer × Tables
  | .openScope _ => (.opened t.opened, { t with frames := ∅ :: t.frames, opened := t.opened + 1 })
  | .closeScope => (.closed, { t with frames := t.frames.tail })
  | .declare ident kind decl index =>
    let object : Object := ⟨t.objects.length, ident.name, kind, decl, index, ident.pos⟩
    let report := (t.first? ident.name).map fun first =>
      (⟨ident.name, ident.pos, first.pos⟩, if first.pos = .none then none else some first.pos)
    (.declared { ident with binding := .resolved object.id } report,
      { t with frames := t.frames.modifyHead (·.enter object), objects := t.objects ++ [object] })
  | .resolve ident collect =>
    if ident.name = Ident.blank then (.resolved ident none, t)
    else
      match t.lookup ident.name with
      | some object => (.resolved { ident with binding := .resolved object.id } (some object.id), t)
      | none => (.resolved (if collect then { ident with binding := .unresolved } else ident) none, t)
  | .lookup name => (.found (t.lookup name), t)

end Tables

/-! ### Refinement -/

/-- The scope binds each name to the number of the object that the table has under it. -/
def ScopeTree.Holds (t : ScopeTree) (id : ScopeId) (frame : Frame) : Prop :=
  ∃ scope, t.get? id = some scope ∧ ∀ name, scope.lookup name = (frame.lookup name).map Object.id

/-- The names are bound once each, and to objects that have them. None of them is blank. -/
def Scope.Proper (objects : List Object) (scope : Scope) : Prop :=
  (scope.bindings.map Prod.fst).Nodup ∧
    ∀ name id, (name, id) ∈ scope.bindings → name ≠ Ident.blank ∧ ∃ object, objects[id]? = some object ∧ object.name = name

/-- The open scopes of the resolver are the tables of the stack. -/
structure Resolver.Shows (r : Resolver) (t : Tables) : Prop where
  sound : r.scopes.Sound
  objects : r.objects = t.objects
  opened : r.scopes.scopes.length = t.opened
  frames : List.Forall₂ r.scopes.Holds r.scopes.opened t.frames
  numbered : ∀ (id : ObjectId) object, t.objects[id]? = some object → object.id = id
  known : ∀ frame ∈ t.frames, ∀ name object, frame.lookup name = some object → t.objects[object.id]? = some object
  proper : ∀ scope ∈ r.scopes.scopes, scope.Proper r.objects

namespace Frame

variable {frame : Frame} {object : Object}

theorem enter_of_blank (h : object.name = Ident.blank) : frame.enter object = frame :=
  if_pos (.inl h)

theorem enter_of_some {first : Object} (h : frame.lookup object.name = some first) : frame.enter object = frame := by
  apply if_pos
  rw [h]
  exact .inr rfl

theorem enter_of_none (hname : object.name ≠ Ident.blank) (h : frame.lookup object.name = none) :
    frame.enter object = frame.insert object.name object := by
  apply if_neg
  rw [h]
  simp [hname]

end Frame

namespace Scope

variable {scope : Scope} {objects : List Object} {name : String} {id : ObjectId}

theorem lookup_enter (hname : scope.lookup name = none) (other : String) :
    (scope.enter name id).lookup other = if other = name then some id else scope.lookup other := by
  show (scope.bindings ++ [(name, id)]).lookup other = _
  rw [List.lookup_append]
  by_cases hother : other = name
  · subst hother
    have hnone : scope.bindings.lookup other = none := hname
    rw [hnone, if_pos rfl]
    simp
  · have hlast : [(name, id)].lookup other = none := List.lookup_eq_none_iff.mpr (by simpa using hother)
    rw [hlast, if_neg hother, Option.or_none]
    rfl

theorem Proper.mono (h : scope.Proper objects) (object : Object) : scope.Proper (objects ++ [object]) := by
  refine ⟨h.1, ?_⟩
  intro name id hmem
  obtain ⟨hname, found, hfound, hfoundName⟩ := h.2 name id hmem
  refine ⟨hname, found, ?_, hfoundName⟩
  rw [List.getElem?_append_left (List.getElem?_eq_some_iff.mp hfound).1]
  exact hfound

theorem Proper.enter {object : Object} (h : scope.Proper objects) (hobject : objects[id]? = some object)
    (hname : object.name ≠ Ident.blank) (hnew : scope.lookup object.name = none) :
    (scope.enter object.name id).Proper objects := by
  obtain ⟨hnodup, hbound⟩ := h
  constructor
  · have hnot : object.name ∉ scope.bindings.map Prod.fst := by
      intro hmem
      obtain ⟨binding, hbinding, heq⟩ := List.mem_map.mp hmem
      have hne := List.lookup_eq_none_iff.mp hnew binding hbinding
      simp [heq] at hne
    show ((scope.bindings ++ [(object.name, id)]).map Prod.fst).Nodup
    rw [List.map_append]
    exact hnodup.append (List.nodup_singleton _) (by simpa using hnot)
  · intro other found hmem
    rcases List.mem_append.mp hmem with hmem | hmem
    · exact hbound other found hmem
    · obtain ⟨rfl, rfl⟩ := Prod.mk.inj (List.mem_singleton.mp hmem)
      exact ⟨hname, object, hobject, rfl⟩

end Scope

/-- A position is absent if it is place 0. -/
theorem Redeclaration.previous?_eq (name : String) (pos previous : Pos) :
    (Redeclaration.mk name pos previous).previous? = if previous = .none then none else some previous := by
  have hvalid : previous.isValid = true ↔ previous ≠ .none := by
    rw [Pos.isValid, decide_eq_true_iff, ne_eq, ne_eq, ← Pos.mk.injEq previous.index 0]
    rfl
  rw [previous?]
  by_cases h : previous = .none
  · rw [if_pos h, if_neg fun hv => hvalid.mp hv h]
  · rw [if_neg h, if_pos (hvalid.mpr h)]

namespace Resolver

variable {r : Resolver} {ident : Ident} {kind : ObjectKind} {decl : NodeId} {index : Nat} {collect : Bool}

theorem declare_of_blank (h : ident.name = Ident.blank) :
    r.declare ident kind decl index =
      ({ ident with binding := .resolved r.objects.length }, none,
        { r with objects := r.objects ++ [⟨r.objects.length, ident.name, kind, decl, index, ident.pos⟩] }) :=
  if_pos (decide_eq_true h)

theorem declare_of_named (h : ident.name ≠ Ident.blank) :
    r.declare ident kind decl index =
      let objects := r.objects ++ [⟨r.objects.length, ident.name, kind, decl, index, ident.pos⟩]
      ({ ident with binding := .resolved r.objects.length },
        (r.scopes.insert ident.name r.objects.length).1.map fun first =>
          ⟨ident.name, ident.pos, ((objects[first]?).map Object.pos).getD .none⟩,
        { r with scopes := (r.scopes.insert ident.name r.objects.length).2, objects }) :=
  if_neg (by rw [Ident.isBlank, decide_eq_true_iff]; exact h)

theorem resolve_of_blank (h : ident.name = Ident.blank) : r.resolve ident collect = (ident, none, r) :=
  if_pos (decide_eq_true h)

theorem resolve_of_named (h : ident.name ≠ Ident.blank) :
    r.resolve ident collect =
      match r.scopes.lookup ident.name with
      | some id => ({ ident with binding := .resolved id }, some id, r)
      | none =>
        if collect then
          ({ ident with binding := .unresolved }, none,
            { r with unresolved := r.unresolved ++ [{ ident with binding := .unresolved }] })
        else (ident, none, r) :=
  if_neg (by rw [Ident.isBlank, decide_eq_true_iff]; exact h)

end Resolver

namespace Resolver.Shows

variable {r : Resolver} {t : Tables}

theorem empty : Resolver.empty.Shows .empty where
  sound := .empty
  objects := rfl
  opened := rfl
  frames := .nil
  numbered := nofun
  known := nofun
  proper := nofun

theorem findSome?_holds {scopes : ScopeTree} {ids : List ScopeId} {frames : List Frame}
    (h : List.Forall₂ scopes.Holds ids frames) (name : String) :
    (ids.findSome? fun id => (scopes.get? id).bind (·.lookup name)) =
      (frames.findSome? (·.lookup name)).map Object.id := by
  induction h with
  | nil => rfl
  | cons hhead _ ih =>
    obtain ⟨scope, hget, hlookup⟩ := hhead
    rw [List.findSome?_cons, List.findSome?_cons, hget, Option.bind_some, hlookup]
    cases Finmap.lookup name _ with
    | some object => rfl
    | none => exact ih

/-- A name is bound to what the innermost table with this name has under it. -/
theorem lookup (h : r.Shows t) (name : String) : r.scopes.lookup name = (t.lookup name).map Object.id :=
  findSome?_holds h.frames name

theorem object?_of_lookup (h : r.Shows t) {name : String} {object : Object} (hlookup : t.lookup name = some object) :
    r.object? object.id = some object := by
  obtain ⟨frame, hframe, hobject⟩ := List.exists_of_findSome?_eq_some hlookup
  rw [object?, h.objects]
  exact h.known frame hframe name object hobject

theorem openScope (h : r.Shows t) (kind : ScopeKind) :
    (r.call (.openScope kind)).1 = (t.call (.openScope kind)).1 ∧
      (r.call (.openScope kind)).2.Shows (t.call (.openScope kind)).2 := by
  constructor
  · show Answer.opened r.scopes.scopes.length = Answer.opened t.opened
    rw [h.opened]
  · constructor
    case sound => exact h.sound.push kind
    case objects => exact h.objects
    case opened =>
      show (r.scopes.scopes ++ [_]).length = t.opened + 1
      rw [List.length_append, h.opened, List.length_singleton]
    case frames =>
      apply List.Forall₂.cons
      · exact ⟨_, ScopeTree.get?_push_self r.scopes kind, fun name => rfl⟩
      · apply h.frames.imp
        rintro id frame ⟨scope, hget, hlookup⟩
        exact ⟨scope, ScopeTree.get?_push_of_some hget kind, hlookup⟩
    case numbered => exact h.numbered
    case known =>
      intro frame hframe name object hlookup
      rcases List.mem_cons.mp hframe with rfl | hframe
      · rw [Finmap.lookup_empty] at hlookup
        cases hlookup
      · exact h.known frame hframe name object hlookup
    case proper =>
      intro scope hscope
      rcases List.mem_append.mp hscope with hscope | hscope
      · exact h.proper scope hscope
      · rw [List.mem_singleton.mp hscope]
        exact ⟨List.nodup_nil, nofun⟩

theorem closeScope (h : r.Shows t) :
    (r.call .closeScope).1 = (t.call .closeScope).1 ∧ (r.call .closeScope).2.Shows (t.call .closeScope).2 := by
  refine ⟨rfl, ?_⟩
  constructor
  case sound => exact h.sound.pop
  case objects => exact h.objects
  case opened => exact h.opened
  case frames =>
    show List.Forall₂ r.scopes.Holds r.scopes.opened.tail t.frames.tail
    rw [← List.drop_one, ← List.drop_one]
    exact List.forall₂_drop 1 h.frames
  case numbered => exact h.numbered
  case known =>
    intro frame hframe
    exact h.known frame (List.mem_of_mem_tail hframe)
  case proper => exact h.proper

/-- A further object does not change what the scopes have. -/
theorem make (h : r.Shows t) (object : Object) (hid : object.id = t.objects.length) :
    Shows { r with objects := r.objects ++ [object] } { t with objects := t.objects ++ [object] } := by
  constructor
  case sound => exact h.sound
  case objects =>
    show r.objects ++ [object] = t.objects ++ [object]
    rw [h.objects]
  case opened => exact h.opened
  case frames => exact h.frames
  case numbered =>
    intro id found hfound
    rcases of_getElem?_concat hfound with hfound | ⟨rfl, rfl⟩
    · exact h.numbered id found hfound
    · exact hid
  case known =>
    intro frame hframe name found hlookup
    have hfound := h.known frame hframe name found hlookup
    show (t.objects ++ [object])[found.id]? = some found
    rw [List.getElem?_append_left (List.getElem?_eq_some_iff.mp hfound).1]
    exact hfound
  case proper => exact fun scope hscope => (h.proper scope hscope).mono object

theorem holds_replace {scopes : ScopeTree} {id : ScopeId} {ids : List ScopeId} {frames : List Frame}
    (h : List.Forall₂ scopes.Holds ids frames) (hid : id ∉ ids) (scope : Scope) :
    List.Forall₂ (scopes.replace id scope).Holds ids frames := by
  induction h with
  | nil => exact .nil
  | cons hhead _ ih =>
    obtain ⟨found, hget, hlookup⟩ := hhead
    rw [List.mem_cons, not_or] at hid
    obtain ⟨hne, hids⟩ := hid
    exact .cons ⟨found, (ScopeTree.get?_replace_of_ne (Ne.symm hne) scope).trans hget, hlookup⟩ (ih hids)

/-- A new name is entered into the innermost scope and into the innermost table. -/
theorem bindNew (h : r.Shows t) {id : ScopeId} {outer : List ScopeId} {scope : Scope} {frame : Frame}
    {further : List Frame} {object : Object} (hopened : r.scopes.opened = id :: outer)
    (hget : r.scopes.get? id = some scope) (hlookup : ∀ name, scope.lookup name = (frame.lookup name).map Object.id)
    (hframes : t.frames = frame :: further) (houter : List.Forall₂ r.scopes.Holds outer further)
    (hobject : t.objects[object.id]? = some object) (hname : object.name ≠ Ident.blank)
    (hnew : frame.lookup object.name = none) :
    Shows { r with scopes := r.scopes.replace id (scope.enter object.name object.id) }
      { t with frames := frame.insert object.name object :: further } := by
  have hunbound : scope.lookup object.name = none := by rw [hlookup, hnew, Option.map_none]
  constructor
  case sound => exact h.sound.replace hget rfl rfl
  case objects => exact h.objects
  case opened =>
    show (r.scopes.scopes.set id _).length = t.opened
    rw [List.length_set, h.opened]
  case frames =>
    show List.Forall₂ _ r.scopes.opened _
    rw [hopened]
    apply List.Forall₂.cons
    · refine ⟨_, ScopeTree.get?_replace_self hget _, ?_⟩
      intro name
      rw [Scope.lookup_enter hunbound]
      by_cases heq : name = object.name
      · rw [if_pos heq, heq, Finmap.lookup_insert, Option.map_some]
      · rw [if_neg heq, hlookup, Finmap.lookup_insert_of_ne _ heq]
    · exact holds_replace houter (h.sound.notMem_outer hopened) _
  case numbered => exact h.numbered
  case known =>
    intro table htable name found hfound
    have hknown := h.known
    rw [hframes] at hknown
    rcases List.mem_cons.mp htable with rfl | htable
    · by_cases heq : name = object.name
      · rw [heq, Finmap.lookup_insert] at hfound
        obtain rfl := Option.some.inj hfound
        exact hobject
      · rw [Finmap.lookup_insert_of_ne _ heq] at hfound
        exact hknown frame List.mem_cons_self name found hfound
    · exact hknown table (List.mem_cons_of_mem _ htable) name found hfound
  case proper =>
    intro other hother
    rcases List.mem_or_eq_of_mem_set hother with hother | rfl
    · exact h.proper other hother
    · apply (h.proper scope (List.mem_of_getElem? hget)).enter _ hname hunbound
      rw [h.objects]
      exact hobject

/-- Entering an object under its name gives the first object of the innermost table that has the name. -/
theorem enter (h : r.Shows t) {object : Object} (hobject : t.objects[object.id]? = some object)
    (hname : object.name ≠ Ident.blank) :
    (r.scopes.insert object.name object.id).1 = (t.first? object.name).map Object.id ∧
      Shows { r with scopes := (r.scopes.insert object.name object.id).2 }
        { t with frames := t.frames.modifyHead (·.enter object) } := by
  rw [Tables.first?, if_neg hname]
  have hall := h.frames
  cases hopened : r.scopes.opened with
  | nil =>
    rw [hopened] at hall
    have hnil : t.frames = [] := List.forall₂_nil_left_iff.mp hall
    have hsame : { t with frames := t.frames.modifyHead (·.enter object) } = t := by
      rw [hnil, List.modifyHead_nil, ← hnil]
    rw [ScopeTree.insert_of_closed hopened, hsame, hnil]
    exact ⟨rfl, h⟩
  | cons id outer =>
    rw [hopened] at hall
    obtain ⟨frame, further, ⟨scope, hget, hlookup⟩, houter, hframes⟩ := List.forall₂_cons_left_iff.mp hall
    rw [ScopeTree.insert_of_open h.sound hopened hget, hlookup, hframes, List.head?_cons, Option.bind_some,
      List.modifyHead_cons]
    cases hfirst : frame.lookup object.name with
    | some first =>
      rw [Frame.enter_of_some hfirst, ← hframes]
      exact ⟨rfl, h⟩
    | none =>
      rw [Frame.enter_of_none hname hfirst]
      exact ⟨rfl, h.bindNew hopened hget hlookup hframes houter hobject hname hfirst⟩

theorem object?_of_first? (h : r.Shows t) {name : String} {first : Object} (hfirst : t.first? name = some first) :
    r.object? first.id = some first := by
  rw [Tables.first?] at hfirst
  split at hfirst
  · cases hfirst
  · obtain ⟨frame, hframe, hlookup⟩ := Option.bind_eq_some_iff.mp hfirst
    rw [object?, h.objects]
    exact h.known frame (List.mem_of_mem_head? hframe) name first hlookup

theorem declare (h : r.Shows t) (ident : Ident) (kind : ObjectKind) (decl : NodeId) (index : Nat) :
    (r.call (.declare ident kind decl index)).1 = (t.call (.declare ident kind decl index)).1 ∧
      (r.call (.declare ident kind decl index)).2.Shows (t.call (.declare ident kind decl index)).2 := by
  let object : Object := ⟨t.objects.length, ident.name, kind, decl, index, ident.pos⟩
  have hmade := h.make object rfl
  have hobject : (t.objects ++ [object])[object.id]? = some object := List.getElem?_concat_length
  rw [Resolver.call, Tables.call]
  by_cases hname : ident.name = Ident.blank
  · have hframes : t.frames.modifyHead (·.enter object) = t.frames := by
      cases t.frames with
      | nil => rfl
      | cons frame further => rw [List.modifyHead_cons, Frame.enter_of_blank hname]
    rw [declare_of_blank hname, Tables.first?, if_pos hname, hframes, h.objects]
    rw [h.objects] at hmade
    exact ⟨rfl, hmade⟩
  · obtain ⟨hentered, hshows⟩ := hmade.enter hobject hname
    have hearlier : (r.scopes.insert ident.name t.objects.length).1 = (t.first? ident.name).map Object.id := hentered
    rw [h.objects] at hshows
    rw [declare_of_named hname, h.objects, hearlier]
    refine ⟨congrArg (Answer.declared _) ?_, hshows⟩
    cases hfirst : t.first? ident.name with
    | none => rfl
    | some first =>
      have hpos : (r.objects ++ [object])[first.id]? = some first := hmade.object?_of_first? hfirst
      rw [h.objects] at hpos
      dsimp only [object] at hpos
      simp only [Option.map_some, hpos, Option.getD_some, Redeclaration.previous?_eq]

theorem resolve (h : r.Shows t) (ident : Ident) (collect : Bool) :
    (r.call (.resolve ident collect)).1 = (t.call (.resolve ident collect)).1 ∧
      (r.call (.resolve ident collect)).2.Shows (t.call (.resolve ident collect)).2 := by
  rw [Resolver.call, Tables.call]
  by_cases hname : ident.name = Ident.blank
  · rw [resolve_of_blank hname, if_pos hname]
    exact ⟨rfl, h⟩
  · rw [resolve_of_named hname, if_neg hname, h.lookup]
    cases t.lookup ident.name with
    | some object => exact ⟨rfl, h⟩
    | none =>
      cases collect with
      | true => exact ⟨rfl, h.sound, h.objects, h.opened, h.frames, h.numbered, h.known, h.proper⟩
      | false => exact ⟨rfl, h⟩

theorem lookupCall (h : r.Shows t) (name : String) :
    (r.call (.lookup name)).1 = (t.call (.lookup name)).1 ∧ (r.call (.lookup name)).2.Shows (t.call (.lookup name)).2 := by
  refine ⟨?_, h⟩
  show Answer.found ((r.scopes.lookup name).bind r.object?) = Answer.found (t.lookup name)
  rw [h.lookup]
  cases hlookup : t.lookup name with
  | none => rfl
  | some object => rw [Option.map_some, Option.bind_some, h.object?_of_lookup hlookup]

/-- Every call is answered as by the stack of tables. -/
theorem call (h : r.Shows t) (call : Call) :
    (r.call call).1 = (t.call call).1 ∧ (r.call call).2.Shows (t.call call).2 := by
  cases call with
  | openScope kind => exact h.openScope kind
  | closeScope => exact h.closeScope
  | declare ident kind decl index => exact h.declare ident kind decl index
  | resolve ident collect => exact h.resolve ident collect
  | lookup name => exact h.lookupCall name

theorem calls (calls : List Call) :
    (runAll Resolver.call .empty calls).1 = (runAll Tables.call .empty calls).1 ∧
      (runAll Resolver.call .empty calls).2.Shows (runAll Tables.call .empty calls).2 :=
  runAll_simulates (fun _ _ call h => h.call call) Shows.empty calls

end Resolver.Shows

namespace Resolver

variable {r : Resolver} {id : ScopeId}

/-- A name of an inner scope is gone when that scope is closed, and the one it hid is found again. -/
example :
    let x (pos : Nat) (binding : Binding) : Ident := ⟨pos, ⟨pos⟩, "x", binding⟩
    (runAll call empty [.openScope .file, .declare (x 1 .unbound) .var 9 0, .openScope .block,
      .declare (x 5 .unbound) .var 9 0, .closeScope, .resolve (x 7 .unbound) true]).1.getLast? =
    some (.resolved (x 7 (.resolved 0)) (some 0)) := by decide

end Resolver

end RoseLang
