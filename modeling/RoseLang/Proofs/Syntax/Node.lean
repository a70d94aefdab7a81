import RoseLang.Proofs.Parse.Binding
import RoseLang.Syntax.Stmt

/-!
# The nodes of a tree and their spans

Statements, declarations, specs, names and expressions are the nodes of one tree. `Laid` says of a list of nodes
that they lie one after the other in a stretch of the text, and that this holds of the children of each of them
within its own span; what `Occurs` in the list is then somewhere in that stretch.
-/

namespace RoseLang

inductive Node where
  | stmt (stmt : Stmt)
  | decl (decl : Decl)
  | spec (spec : Spec)
  | ident (ident : Ident)
  | expr (expr : Expr)

namespace Node

def span : Node → Span
  | stmt s => s.span
  | decl d => d.span
  | spec s => s.span
  | ident i => i.span
  | expr e => e.span

/-- The nodes right below in source order. -/
def children : Node → List Node
  | stmt (.bad ..) | stmt (.empty ..) => []
  | stmt (.decl _ d) => [decl d]
  | stmt (.expr _ e) | stmt (.incDec _ e _ _) => [expr e]
  | stmt (.assign _ left _ _ right) => left.map expr ++ right.map expr
  | decl (.bad ..) => []
  | decl (.specs _ _ _ _ entries _) => entries.map spec
  | spec s => s.names.map ident ++ (s.type.toList.map expr ++ s.values.map expr)
  | ident _ => []
  | expr (.bad ..) | expr (.literal ..) => []
  | expr (.ident _ i) => [ident i]
  | expr (.paren _ _ inner _) => [expr inner]
  | expr (.unary _ _ _ operand) => [expr operand]
  | expr (.binary _ _ _ left right) => [expr left, expr right]

/-- What the node says that its span reads. The blank name also stands where a name is missing. -/
def text? : Node → Option String
  | ident i => if i.isBlank then none else some i.name
  | expr (.literal _ l) => some l.text
  | _ => none

end Node

/-- The node is one of the list or somewhere below one. -/
inductive Occurs (n : Node) : List Node → Prop where
  | here {ns : List Node} (h : n ∈ ns) : Occurs n ns
  | inside {ns : List Node} {m : Node} (hm : m ∈ ns) (h : Occurs n m.children) : Occurs n ns

/-- What holds of the nodes of the list and passes on to children holds of all that occurs. -/
theorem Occurs.of_children {P : Node → Prop} {n : Node} {ns : List Node} (h : Occurs n ns)
    (hchildren : ∀ m, P m → ∀ k ∈ m.children, P k) (hns : ∀ m ∈ ns, P m) : P n := by
  induction h with
  | here hn => exact hns n hn
  | inside hm _ ih => exact ih (hchildren _ (hns _ hm))

/-- Each node ends before the next ones start. -/
def InOrder (ns : List Node) : Prop := ns.Pairwise fun m n => m.span.stop.index ≤ n.span.start.index

/-- The nodes lie one after the other between two places, with their children inside them, and what is said to
be read at a span is read there. -/
inductive Laid (Reads : Span → String → Prop) : Nat → List Node → Nat → Prop where
  | nil {lo hi : Nat} (h : lo ≤ hi) : Laid Reads lo [] hi
  | cons {lo hi : Nat} {n : Node} {ns : List Node} (hlo : lo ≤ n.span.start.index)
      (htext : ∀ text, n.text? = some text → Reads n.span text)
      (hchildren : Laid Reads n.span.start.index n.children n.span.stop.index)
      (hrest : Laid Reads n.span.stop.index ns hi) : Laid Reads lo (n :: ns) hi

namespace Laid

variable {Reads : Span → String → Prop} {lo mid hi lo' hi' : Nat} {n : Node} {ms ns : List Node}

theorem cons_iff :
    Laid Reads lo (n :: ns) hi ↔
      lo ≤ n.span.start.index ∧ (∀ text, n.text? = some text → Reads n.span text) ∧
        Laid Reads n.span.start.index n.children n.span.stop.index ∧ Laid Reads n.span.stop.index ns hi := by
  constructor
  · rintro (_ | ⟨hlo, htext, hchildren, hrest⟩)
    exact ⟨hlo, htext, hchildren, hrest⟩
  · rintro ⟨hlo, htext, hchildren, hrest⟩
    exact .cons hlo htext hchildren hrest

theorem le (h : Laid Reads lo ns hi) : lo ≤ hi := by
  induction h with
  | nil h => exact h
  | cons hlo htext hchildren hrest ihchildren ihrest => exact Nat.le_trans hlo (Nat.le_trans ihchildren ihrest)

theorem mono_left (h : Laid Reads lo ns hi) (hle : lo' ≤ lo) : Laid Reads lo' ns hi := by
  cases h with
  | nil h => exact .nil (Nat.le_trans hle h)
  | cons hlo htext hchildren hrest => exact .cons (Nat.le_trans hle hlo) htext hchildren hrest

theorem append (hms : Laid Reads lo ms mid) (hns : Laid Reads mid ns hi) : Laid Reads lo (ms ++ ns) hi := by
  induction hms with
  | nil h => exact hns.mono_left h
  | cons hlo htext hchildren hrest ihchildren ihrest => exact .cons hlo htext hchildren (ihrest hns)

theorem mono_right (h : Laid Reads lo ns hi) (hle : hi ≤ hi') : Laid Reads lo ns hi' := by
  have h' := h.append (.nil hle)
  rwa [List.append_nil] at h'

theorem mono (h : Laid Reads lo ns hi) (hlo : lo' ≤ lo) (hhi : hi ≤ hi') : Laid Reads lo' ns hi' :=
  (h.mono_left hlo).mono_right hhi

theorem singleton (n : Node) (htext : ∀ text, n.text? = some text → Reads n.span text)
    (hchildren : Laid Reads n.span.start.index n.children n.span.stop.index) :
    Laid Reads n.span.start.index [n] n.span.stop.index :=
  .cons (Nat.le_refl _) htext hchildren (.nil (Nat.le_refl _))

/-- A node that has no text of its own. -/
theorem wrap (n : Node) (htext : n.text? = none)
    (hchildren : Laid Reads n.span.start.index n.children n.span.stop.index) :
    Laid Reads n.span.start.index [n] n.span.stop.index := by
  refine singleton n (fun text h => ?_) hchildren
  rw [htext] at h
  cases h

/-- A node without children. -/
theorem leaf (n : Node) (htext : ∀ text, n.text? = some text → Reads n.span text) (hnone : n.children = [])
    (hle : n.span.start.index ≤ n.span.stop.index) : Laid Reads n.span.start.index [n] n.span.stop.index :=
  singleton n htext (by rw [hnone]; exact .nil hle)

/-- The nodes reach from the start of the first one to the end of the last one. -/
theorem tighten (h : Laid Reads lo ns hi) {first last : Node} (hfirst : ns.head? = some first)
    (hlast : ns.getLast? = some last) :
    lo ≤ first.span.start.index ∧ Laid Reads first.span.start.index ns last.span.stop.index ∧
      last.span.stop.index ≤ hi := by
  induction h generalizing first with
  | nil h => cases hfirst
  | @cons lo hi n ns hlo htext hchildren hrest ihchildren ihrest =>
    obtain rfl := Option.some.inj hfirst
    cases ns with
    | nil =>
      obtain rfl := Option.some.inj hlast
      exact ⟨hlo, singleton n htext hchildren, hrest.le⟩
    | cons m ns =>
      obtain ⟨hle, hlaid, hhi⟩ := ihrest rfl (by rwa [List.getLast?_cons_cons] at hlast)
      exact ⟨hlo, .cons (Nat.le_refl _) htext hchildren (hlaid.mono_left hle), hhi⟩

/-- A node that reaches from the start of its first child to the end of its last one. -/
theorem enclose (n : Node) (h : Laid Reads lo n.children hi) {first last : Node}
    (hfirst : n.children.head? = some first) (hlast : n.children.getLast? = some last)
    (hspan : n.span = ⟨first.span.start, last.span.stop⟩) (htext : n.text? = none) : Laid Reads lo [n] hi := by
  obtain ⟨hlo, hlaid, hhi⟩ := h.tighten hfirst hlast
  have hnode : Laid Reads n.span.start.index [n] n.span.stop.index := by
    refine wrap n htext ?_
    rw [hspan]
    exact hlaid
  rw [hspan] at hnode
  exact hnode.mono hlo hhi

theorem forall_mem (h : Laid Reads lo ns hi) :
    ∀ n ∈ ns, lo ≤ n.span.start.index ∧ n.span.stop.index ≤ hi ∧
      (∀ text, n.text? = some text → Reads n.span text) ∧
      Laid Reads n.span.start.index n.children n.span.stop.index := by
  induction h with
  | nil => simp
  | cons hlo htext hchildren hrest ihchildren ihrest =>
    intro m hm
    rcases List.mem_cons.mp hm with rfl | hm
    · exact ⟨hlo, hrest.le, htext, hchildren⟩
    · obtain ⟨hstart, hm⟩ := ihrest m hm
      exact ⟨Nat.le_trans hlo (Nat.le_trans hchildren.le hstart), hm⟩

theorem inOrder (h : Laid Reads lo ns hi) : InOrder ns := by
  induction h with
  | nil => exact .nil
  | cons hlo htext hchildren hrest ihchildren ihrest =>
    exact .cons (fun m hm => (hrest.forall_mem m hm).1) ihrest

/-- What holds of the nodes of the list holds of all below them. -/
theorem occurs (h : Laid Reads lo ns hi) (hn : Occurs n ns) :
    lo ≤ n.span.start.index ∧ n.span.stop.index ≤ hi ∧ (∀ text, n.text? = some text → Reads n.span text) ∧
      Laid Reads n.span.start.index n.children n.span.stop.index := by
  induction hn generalizing lo hi with
  | here hn => exact h.forall_mem n hn
  | inside hm hn ih =>
    obtain ⟨hstart, hstop, -, hchildren⟩ := h.forall_mem _ hm
    obtain ⟨hlo, hhi, hrest⟩ := ih hchildren
    exact ⟨Nat.le_trans hstart hlo, Nat.le_trans hhi hstop, hrest⟩

/-! ### Bindings -/

theorem ident_unbound_iff {i : Ident} :
    Laid Reads lo (.ident i.unbound :: ns) hi ↔ Laid Reads lo (.ident i :: ns) hi := by
  rw [cons_iff, cons_iff]
  rfl

theorem expr_unbound_iff {e : Expr} :
    Laid Reads lo (.expr e.unbound :: ns) hi ↔ Laid Reads lo (.expr e :: ns) hi := by
  induction e generalizing lo hi ns with
  | bad | literal => exact Iff.rfl
  | ident id i =>
    rw [cons_iff, cons_iff]
    exact and_congr Iff.rfl (and_congr Iff.rfl (and_congr ident_unbound_iff Iff.rfl))
  | paren id lparen inner rparen ih =>
    rw [cons_iff, cons_iff]
    exact and_congr Iff.rfl (and_congr Iff.rfl (and_congr ih Iff.rfl))
  | unary id op opPos operand ih =>
    have hspan : (Node.expr (.unary id op opPos operand.unbound)).span =
        (Node.expr (.unary id op opPos operand)).span :=
      congrArg (Span.mk opPos) operand.stop_unbound
    rw [Expr.unbound, cons_iff, cons_iff, hspan]
    exact and_congr Iff.rfl (and_congr Iff.rfl (and_congr ih Iff.rfl))
  | binary id op opPos left right ihleft ihright =>
    have hspan : (Node.expr (.binary id op opPos left.unbound right.unbound)).span =
        (Node.expr (.binary id op opPos left right)).span := by
      show Span.mk left.unbound.pos right.unbound.stop = Span.mk left.pos right.stop
      rw [left.pos_unbound, right.stop_unbound]
    have hchildren {lo hi : Nat} : Laid Reads lo [.expr left.unbound, .expr right.unbound] hi ↔
        Laid Reads lo [.expr left, .expr right] hi := by
      rw [ihleft, cons_iff (n := .expr left), cons_iff (n := .expr left), ihright]
    rw [Expr.unbound, cons_iff, cons_iff, hspan]
    exact and_congr Iff.rfl (and_congr Iff.rfl (and_congr hchildren Iff.rfl))

/-- The names and expressions of a list may be looked up or declared one by one. -/
theorem map_unbound_iff {α : Type} {node : α → Node} {unbound : α → α}
    (hnode : ∀ {lo hi ns a}, Laid Reads lo (node (unbound a) :: ns) hi ↔ Laid Reads lo (node a :: ns) hi)
    {as : List α} : Laid Reads lo ((as.map unbound).map node) hi ↔ Laid Reads lo (as.map node) hi := by
  induction as generalizing lo with
  | nil => exact Iff.rfl
  | cons a as ih =>
    rw [List.map_cons, List.map_cons, List.map_cons, hnode, cons_iff (n := node a), cons_iff (n := node a), ih]

theorem expr_congr {e e' : Expr} (hunbound : e'.unbound = e.unbound) (h : Laid Reads lo (.expr e :: ns) hi) :
    Laid Reads lo (.expr e' :: ns) hi := by
  rw [← expr_unbound_iff, hunbound, expr_unbound_iff]
  exact h

theorem exprs_congr {es es' : List Expr} (hunbound : es'.map Expr.unbound = es.map Expr.unbound)
    (h : Laid Reads lo (es.map .expr) hi) : Laid Reads lo (es'.map .expr) hi := by
  rw [← map_unbound_iff expr_unbound_iff, hunbound, map_unbound_iff expr_unbound_iff]
  exact h

theorem idents_congr {is is' : List Ident} (hunbound : is'.map Ident.unbound = is.map Ident.unbound)
    (h : Laid Reads lo (is.map .ident) hi) : Laid Reads lo (is'.map .ident) hi := by
  rw [← map_unbound_iff ident_unbound_iff, hunbound, map_unbound_iff ident_unbound_iff]
  exact h

end Laid

end RoseLang
