import RoseLang.Source.Pos
import RoseLang.Token.Word

/-!
# Identifiers

Every node of a syntax tree has a number. An identifier has one of its own, besides that of the node it
stands in, and says what it has been found to denote.
-/

namespace RoseLang

/-- The number of a node. -/
abbrev NodeId := Nat

/-- The number of a node that no parse has numbered. -/
def NodeId.dummy : NodeId := 4294967295

/-- The number of a declared object, its index in the table of objects. -/
abbrev ObjectId := Nat

/-- What an identifier denotes. `unbound` means that it was not looked up, `unresolved` that it was and
no open scope had its name. -/
inductive Binding where
  | unbound
  | resolved (object : ObjectId)
  | unresolved
  deriving DecidableEq, Repr, Inhabited

structure Ident where
  id : NodeId
  pos : Pos
  name : String
  binding : Binding
  deriving DecidableEq, Repr, Inhabited

namespace Ident

/-- The name that declares nothing and denotes nothing. It also stands for a missing name. -/
def blank : String := "_"

def isBlank (i : Ident) : Bool := i.name = blank

def isExported (i : Ident) : Bool := Word.isExported i.name

def stop (i : Ident) : Pos := i.pos.advance i.name.utf8ByteSize

def span (i : Ident) : Span := ⟨i.pos, i.stop⟩

end Ident

end RoseLang
