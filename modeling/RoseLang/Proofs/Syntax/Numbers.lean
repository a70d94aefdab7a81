import RoseLang.Proofs.Syntax.Node

/-!
# The numbers of the nodes of a tree

`numbers` lists the numbers of a tree in the order in which a walk leaves the nodes: those of its parts in source
order, then its own. Where the numbers of such a walk increase, each node has a greater one than all below it.
-/

namespace RoseLang

namespace Expr

def numbers : Expr → List NodeId
  | bad id .. | literal id _ => [id]
  | ident id i => [i.id, id]
  | paren id _ inner _ => inner.numbers ++ [id]
  | unary id _ _ operand => operand.numbers ++ [id]
  | binary id _ _ left right => left.numbers ++ right.numbers ++ [id]

end Expr

def Spec.numbers (s : Spec) : List NodeId := s.names.map Ident.id ++ s.exprs.flatMap Expr.numbers ++ [s.id]

def Decl.numbers : Decl → List NodeId
  | .bad id .. => [id]
  | .specs id _ _ _ entries _ => entries.flatMap Spec.numbers ++ [id]

namespace Stmt

/-- The numbers of all that is inside the statement. -/
def inner : Stmt → List NodeId
  | .decl _ d => d.numbers
  | s => s.exprs.flatMap Expr.numbers

def numbers (s : Stmt) : List NodeId := s.inner ++ [s.id]

end Stmt

namespace Node

def id : Node → NodeId
  | stmt s => s.id
  | decl d => d.id
  | spec s => s.id
  | ident i => i.id
  | expr e => e.id

def numbers : Node → List NodeId
  | stmt s => s.numbers
  | decl d => d.numbers
  | spec s => s.numbers
  | ident i => [i.id]
  | expr e => e.numbers

/-- The walk goes through the children, then leaves the node. -/
theorem numbers_eq (n : Node) : n.numbers = n.children.flatMap numbers ++ [n.id] := by
  have hexprs : ∀ es : List Expr, (es.map expr).flatMap numbers = es.flatMap Expr.numbers :=
    fun _ => List.flatMap_map ..
  cases n with
  | stmt s =>
    show s.inner ++ [s.id] = _
    refine congrArg (· ++ [s.id]) ?_
    cases s with
    | bad | empty => rfl
    | decl _ d => exact (List.flatMap_singleton _ _).symm
    | expr _ e => rfl
    | incDec _ e => rfl
    | assign _ left _ _ right =>
      rw [Stmt.inner, Stmt.exprs, children, ← List.map_append, hexprs]
      all_goals exact fun _ _ h => by cases h
  | decl d =>
    cases d with
    | bad => rfl
    | specs id keyword keywordPos lparen entries rparen =>
      show entries.flatMap Spec.numbers ++ [id] = (entries.map spec).flatMap numbers ++ [id]
      rw [List.flatMap_map]
      rfl
  | spec s =>
    have hnames : (s.names.map ident).flatMap numbers = s.names.map Ident.id := by
      rw [List.flatMap_map, List.map_eq_flatMap]
      rfl
    show s.names.map Ident.id ++ s.exprs.flatMap Expr.numbers ++ [s.id] = _
    rw [children, List.flatMap_append, hnames, ← List.map_append, hexprs, Spec.exprs]
    rfl
  | ident i => rfl
  | expr e =>
    cases e with
    | bad | literal | ident => rfl
    | paren _ _ inner _ => rw [children, List.flatMap_singleton]; rfl
    | unary _ _ _ operand => rw [children, List.flatMap_singleton]; rfl
    | binary id op opPos left right =>
      show left.numbers ++ right.numbers ++ [id] = ([expr left, expr right]).flatMap numbers ++ [id]
      rw [List.flatMap_cons, List.flatMap_singleton]
      rfl

end Node

variable {m n : Node} {ns : List Node}

theorem Occurs.id_mem (h : Occurs n ns) : n.id ∈ ns.flatMap Node.numbers := by
  induction h with
  | here hn =>
    refine List.mem_flatMap.mpr ⟨n, hn, ?_⟩
    rw [n.numbers_eq]
    exact List.mem_append_right _ (List.mem_singleton_self _)
  | @inside ns m hm _ ih =>
    refine List.mem_flatMap.mpr ⟨m, hm, ?_⟩
    rw [m.numbers_eq]
    exact List.mem_append_left _ ih

/-- What a walk over a node gives is part of what the walk over all of them gives. -/
theorem Occurs.numbers_sublist (h : Occurs n ns) : n.numbers.Sublist (ns.flatMap Node.numbers) := by
  have hmem : ∀ {n : Node} {ns : List Node}, n ∈ ns → n.numbers.Sublist (ns.flatMap Node.numbers) :=
    fun hn => List.sublist_flatten_of_mem (List.mem_map_of_mem hn)
  induction h with
  | here hn => exact hmem hn
  | @inside ns m hm _ ih =>
    refine List.Sublist.trans ?_ (hmem hm)
    rw [m.numbers_eq]
    exact ih.trans (List.sublist_append_left _ _)

/-- Where the numbers increase, a node has a greater one than all that is below it. -/
theorem Occurs.id_lt (hincreasing : (ns.flatMap Node.numbers).Pairwise (· < ·)) (hn : Occurs n ns)
    (hm : Occurs m n.children) : m.id < n.id := by
  have hbelow : (n.children.flatMap Node.numbers ++ [n.id]).Pairwise (· < ·) := by
    rw [← n.numbers_eq]
    exact hincreasing.sublist hn.numbers_sublist
  exact (List.pairwise_append.mp hbelow).2.2 m.id hm.id_mem n.id (List.mem_singleton_self _)

end RoseLang
