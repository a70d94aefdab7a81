import RoseLang.Syntax.Ident

/-!
# Declared objects

Every declared name makes an object. Its number is its index in the table of objects.
-/

namespace RoseLang

/-- What a declared name denotes: `const` cannot be changed, `var` can. -/
inductive ObjectKind where
  | const
  | var
  deriving DecidableEq, Repr, Inhabited

def ObjectKind.name : ObjectKind → String
  | const => "const"
  | var => "var"

structure Object where
  id : ObjectId
  name : String
  kind : ObjectKind
  /-- The spec that declares the name. -/
  decl : NodeId
  /-- The index of that spec in its group. -/
  index : Nat
  pos : Pos
  deriving DecidableEq, Repr, Inhabited

/-- A name declared twice in one scope, with the positions of this declaration and of the first. -/
structure Redeclaration where
  name : String
  pos : Pos
  previous : Pos
  deriving DecidableEq, Repr, Inhabited

namespace Redeclaration

def message (r : Redeclaration) : String := r.name ++ " redeclared in this block"

/-- The position of the first declaration, if it has one. -/
def previous? (r : Redeclaration) : Option Pos := if r.previous.isValid then some r.previous else none

end Redeclaration

end RoseLang
