import RoseLang.Scope.Object

/-!
# Scope trees

Scopes are opened inside each other and closed in reverse. A closed scope stays in the tree with its
bindings; only the open ones are seen by `lookup`, the innermost first.
-/

namespace RoseLang

/-- The number of a scope, its index in the tree. -/
abbrev ScopeId := Nat

inductive ScopeKind where
  | file
  | block
  deriving DecidableEq, Repr, Inhabited

structure Scope where
  id : ScopeId
  parent : Option ScopeId
  kind : ScopeKind
  /-- The names bound in the scope, each with the first object declared under it. -/
  bindings : List (String × ObjectId)
  deriving DecidableEq, Repr, Inhabited

def Scope.lookup (s : Scope) (name : String) : Option ObjectId := s.bindings.lookup name

structure ScopeTree where
  scopes : List Scope
  /-- The open scopes, innermost first. Each is the parent of the one before it. -/
  opened : List ScopeId
  deriving DecidableEq, Repr

namespace ScopeTree

def empty : ScopeTree := ⟨[], []⟩

def current (t : ScopeTree) : Option ScopeId := t.opened.head?

def get? (t : ScopeTree) (id : ScopeId) : Option Scope := t.scopes[id]?

/-- Opens a scope inside the current one. -/
def push (t : ScopeTree) (kind : ScopeKind) : ScopeId × ScopeTree :=
  let id := t.scopes.length
  (id, ⟨t.scopes ++ [⟨id, t.current, kind, []⟩], id :: t.opened⟩)

/-- Closes the current scope, if one is open. -/
def pop (t : ScopeTree) : ScopeTree := { t with opened := t.opened.tail }

/-- The object that the innermost open scope with this name binds it to. -/
def lookup (t : ScopeTree) (name : String) : Option ObjectId :=
  t.opened.findSome? fun id => (t.get? id).bind (·.lookup name)

/-- Binds the name in the current scope. A name that is bound there already keeps its object, which is
returned. Without an open scope nothing is bound. -/
def insert (t : ScopeTree) (name : String) (object : ObjectId) : Option ObjectId × ScopeTree :=
  match t.current.bind t.get? with
  | none => (none, t)
  | some scope =>
    match scope.lookup name with
    | some earlier => (some earlier, t)
    | none =>
      (none,
        { t with
          scopes := t.scopes.set scope.id { scope with bindings := scope.bindings ++ [(name, object)] } })

end ScopeTree

end RoseLang
