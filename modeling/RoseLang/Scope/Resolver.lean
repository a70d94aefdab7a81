import RoseLang.Scope.Tree

/-!
# Name resolution

A resolver declares names in the current scope and finds out what used names denote. A name that no
open scope has may be declared in another file, so it is collected and not reported. The blank name is
never declared in a scope and never looked up.
-/

namespace RoseLang

structure Resolver where
  scopes : ScopeTree
  objects : List Object
  /-- The identifiers that were looked up in vain, in order. -/
  unresolved : List Ident
  deriving DecidableEq, Repr

namespace Resolver

def empty : Resolver := ⟨.empty, [], []⟩

def openScope (r : Resolver) (kind : ScopeKind) : ScopeId × Resolver :=
  let (id, scopes) := r.scopes.push kind
  (id, { r with scopes })

def closeScope (r : Resolver) : Resolver := { r with scopes := r.scopes.pop }

def object? (r : Resolver) (id : ObjectId) : Option Object := r.objects[id]?

def lookup (r : Resolver) (name : String) : Option Object := (r.scopes.lookup name).bind r.object?

/-- Makes an object for the identifier, binds the identifier to it, and enters its name into the
current scope. A name that the scope has already keeps its first object, and this is reported. -/
def declare (r : Resolver) (ident : Ident) (kind : ObjectKind) (decl : NodeId) (index : Nat) :
    Ident × Option Redeclaration × Resolver :=
  let id := r.objects.length
  let bound := { ident with binding := .resolved id }
  let r := { r with objects := r.objects ++ [⟨id, ident.name, kind, decl, index, ident.pos⟩] }
  if ident.isBlank then (bound, none, r)
  else
    let (earlier, scopes) := r.scopes.insert ident.name id
    let report := earlier.map fun first =>
      ⟨ident.name, ident.pos, ((r.object? first).map Object.pos).getD .none⟩
    (bound, report, { r with scopes })

/-- Binds the identifier to what it denotes, which is returned too. An identifier that denotes nothing
known is marked and collected if `collect` is set. -/
def resolve (r : Resolver) (ident : Ident) (collect : Bool) : Ident × Option ObjectId × Resolver :=
  if ident.isBlank then (ident, none, r)
  else
    match r.scopes.lookup ident.name with
    | some id => ({ ident with binding := .resolved id }, some id, r)
    | none =>
      if collect then
        let ident := { ident with binding := .unresolved }
        (ident, none, { r with unresolved := r.unresolved ++ [ident] })
      else (ident, none, r)

end Resolver

end RoseLang
