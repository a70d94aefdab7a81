import RoseLang.Proofs.Syntax.Numbers

/-!
# What a walk over a tree finds

A walk leaves each node after its parts, and finds something in the start of a bad node and in the number of any
node. The numbers of a tree are what one such walk finds, and the places of its bad nodes what another one does.
-/

namespace RoseLang

/-! ### Placeholders

A bad node stands for tokens of which nothing could be made. `placeholders` lists where the bad nodes of a tree
start, in source order. -/

namespace Expr

def placeholders : Expr → List Pos
  | bad _ start _ => [start]
  | ident .. | literal .. => []
  | paren _ _ inner _ => inner.placeholders
  | unary _ _ _ operand => operand.placeholders
  | binary _ _ _ left right => left.placeholders ++ right.placeholders

end Expr

def Decl.placeholders : Decl → List Pos
  | .bad _ start _ => [start]
  | d => d.exprs.flatMap Expr.placeholders

def Stmt.placeholders : Stmt → List Pos
  | .bad _ start _ => [start]
  | .decl _ d => d.placeholders
  | s => s.exprs.flatMap Expr.placeholders

/-! ### Walks -/

structure Walk (X : Type) where
  bad : Pos → List X
  number : NodeId → List X

namespace Walk

def numbers : Walk NodeId := ⟨fun _ => [], fun id => [id]⟩

def placeholders : Walk Pos := ⟨fun pos => [pos], fun _ => []⟩

end Walk

variable {X : Type} (w : Walk X)

namespace Expr

def walk : Expr → List X
  | bad id start _ => w.bad start ++ w.number id
  | literal id _ => w.number id
  | ident id i => w.number i.id ++ w.number id
  | paren id _ inner _ => inner.walk ++ w.number id
  | unary id _ _ operand => operand.walk ++ w.number id
  | binary id _ _ left right => left.walk ++ right.walk ++ w.number id

theorem walk_unbound (e : Expr) : e.unbound.walk w = e.walk w := by
  induction e with
  | bad | ident | literal => rfl
  | paren _ _ _ _ ih => rw [unbound, walk, walk, ih]
  | unary _ _ _ _ ih => rw [unbound, walk, walk, ih]
  | binary _ _ _ _ _ hleft hright => rw [unbound, walk, walk, hleft, hright]

theorem walk_congr {e e' : Expr} (h : e'.unbound = e.unbound) : e'.walk w = e.walk w := by
  rw [← walk_unbound, h, walk_unbound]

theorem flatMap_walk_congr {es es' : List Expr} (h : es'.map unbound = es.map unbound) :
    es'.flatMap (walk w) = es.flatMap (walk w) := by
  have hunbound : ∀ es : List Expr, (es.map unbound).flatMap (walk w) = es.flatMap (walk w) := by
    intro es
    rw [List.flatMap_map, funext (walk_unbound w)]
  rw [← hunbound, h, hunbound]

theorem walk_numbers : walk .numbers = numbers := by
  funext e
  induction e with
  | bad | ident | literal => rfl
  | paren _ _ _ _ ih | unary _ _ _ _ ih => rw [walk, numbers, ih]; rfl
  | binary _ _ _ _ _ hleft hright => rw [walk, numbers, hleft, hright]; rfl

theorem walk_placeholders : walk .placeholders = placeholders := by
  funext e
  induction e with
  | bad | ident | literal => rfl
  | paren _ _ _ _ ih | unary _ _ _ _ ih => rw [walk, placeholders, ih]; exact List.append_nil _
  | binary _ _ _ _ _ hleft hright => rw [walk, placeholders, hleft, hright]; exact List.append_nil _

end Expr

def Spec.walk (s : Spec) : List X :=
  s.names.flatMap (fun name => w.number name.id) ++ s.exprs.flatMap (Expr.walk w) ++ w.number s.id

def Decl.walk : Decl → List X
  | .bad id start _ => w.bad start ++ w.number id
  | .specs id _ _ _ entries _ => entries.flatMap (Spec.walk w) ++ w.number id

namespace Stmt

/-- What is found before the walk leaves the statement. -/
def walkInside : Stmt → List X
  | .bad _ start _ => w.bad start
  | .decl _ d => d.walk w
  | s => s.exprs.flatMap (Expr.walk w)

def walk (s : Stmt) : List X := s.walkInside w ++ w.number s.id

end Stmt

theorem Spec.walk_numbers : Spec.walk .numbers = Spec.numbers := by
  funext s
  rw [walk, Expr.walk_numbers, numbers, List.map_eq_flatMap]
  rfl

theorem Spec.walk_placeholders : Spec.walk .placeholders = fun s => s.exprs.flatMap Expr.placeholders := by
  funext s
  rw [walk, Expr.walk_placeholders]
  simp [Walk.placeholders]

theorem Stmt.walk_numbers : Stmt.walk .numbers = Stmt.numbers := by
  funext s
  refine congrArg (· ++ [s.id]) ?_
  cases s with
  | decl id d =>
    cases d with
    | bad => rfl
    | specs => rw [walkInside, Decl.walk, Spec.walk_numbers]; rfl
  | bad | empty => rfl
  | expr | incDec | assign => exact congrArg (List.flatMap · (exprs _)) Expr.walk_numbers

theorem Stmt.walk_placeholders : Stmt.walk .placeholders = Stmt.placeholders := by
  funext s
  rw [walk, show Walk.placeholders.number s.id = [] from rfl, List.append_nil]
  cases s with
  | decl id d =>
    cases d with
    | bad => exact List.append_nil _
    | specs =>
      rw [walkInside, Decl.walk, Spec.walk_placeholders, ← List.flatMap_assoc]
      exact List.append_nil _
  | bad | empty => rfl
  | expr | incDec | assign => exact congrArg (List.flatMap · (exprs _)) Expr.walk_placeholders

end RoseLang
