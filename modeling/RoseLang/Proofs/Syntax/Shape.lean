import RoseLang.Proofs.Syntax.Grouping
import RoseLang.Syntax.Sexp

/-!
# The shape of a tree

What remains of a tree once it is forgotten where it stands and what its names denote, and how deeply
its expressions are nested. A parenthesis and a unary operator enter a level for what they contain. In a
chain, each operator enters one more level for its right operand than the operator before it did.
-/

namespace RoseLang

namespace Expr

/-- Whether the expression has no bad part. -/
def Complete : Expr → Prop
  | bad .. => False
  | ident .. | literal .. => True
  | paren _ _ inner _ => inner.Complete
  | unary _ _ _ operand => operand.Complete
  | binary _ _ _ left right => left.Complete ∧ right.Complete

/-- The number of binary operators that follow each other on the left spine. -/
def spine : Expr → Nat
  | binary _ _ _ left _ => left.spine + 1
  | _ => 0

/-- The number of nesting levels that reading the expression needs. -/
def levels : Expr → Nat
  | bad .. | ident .. | literal .. => 0
  | paren _ _ inner _ => inner.levels + 1
  | unary _ _ _ operand => operand.levels + 1
  | binary _ _ _ left right => max left.levels (left.spine + 1 + right.levels)

end Expr

/-! ### Equality up to numbers, positions and bindings -/

def Ident.erase (i : Ident) : Ident := ⟨.dummy, .none, i.name, .unbound⟩

def Literal.erase (l : Literal) : Literal := ⟨.none, l.kind, l.text⟩

/-- The expression without numbers, positions and bindings. -/
def Expr.erase : Expr → Expr
  | bad .. => .bad .dummy .none .none
  | ident _ i => .ident .dummy i.erase
  | literal _ l => .literal .dummy l.erase
  | paren _ _ inner _ => .paren .dummy .none inner.erase .none
  | unary _ op _ operand => .unary .dummy op .none operand.erase
  | binary _ op _ left right => .binary .dummy op .none left.erase right.erase

namespace Expr

-- The equations that the lemmas below rewrite with are made here, once.
attribute [local simp] erase levels spine Grouped sexp

theorem binaryOp?_erase (e : Expr) : e.erase.binaryOp? = e.binaryOp? := by cases e <;> rfl

theorem spine_erase (e : Expr) : e.erase.spine = e.spine := by
  induction e with
  | binary id op opPos left right ihleft _ => rw [erase, spine, spine, ihleft]
  | _ => rfl

theorem levels_erase (e : Expr) : e.erase.levels = e.levels := by
  induction e with
  | bad | ident | literal => rfl
  | paren id lparen inner rparen ih => rw [erase, levels, levels, ih]
  | unary id op opPos operand ih => rw [erase, levels, levels, ih]
  | binary id op opPos left right ihleft ihright =>
    rw [erase, levels, levels, ihleft, ihright, spine_erase]

theorem complete_erase (e : Expr) : e.erase.Complete ↔ e.Complete := by
  induction e with
  | bad | ident | literal => rfl
  | paren id lparen inner rparen ih => exact ih
  | unary id op opPos operand ih => exact ih
  | binary id op opPos left right ihleft ihright => exact and_congr ihleft ihright

theorem grouped_erase (e : Expr) : e.erase.Grouped ↔ e.Grouped := by
  induction e with
  | bad | ident | literal => rfl
  | paren id lparen inner rparen ih => exact ih
  | unary id op opPos operand ih =>
    rw [erase, Grouped, Grouped, binaryOp?_erase, ih]
  | binary id op opPos left right ihleft ihright =>
    rw [erase, Grouped, Grouped, ihleft, ihright, BinaryOp.AdmitsLeft, BinaryOp.AdmitsLeft,
      BinaryOp.AdmitsRight, BinaryOp.AdmitsRight, binaryOp?_erase, binaryOp?_erase]

end Expr

def Spec.erase (s : Spec) : Spec :=
  ⟨.dummy, s.names.map Ident.erase, s.type.map Expr.erase, s.values.map Expr.erase⟩

def Decl.erase : Decl → Decl
  | .bad .. => .bad .dummy .none .none
  | .specs _ keyword _ lparen entries _ =>
    .specs .dummy keyword .none (if lparen.isValid then ⟨1⟩ else .none) (entries.map Spec.erase) .none

def Stmt.erase : Stmt → Stmt
  | .bad .. => .bad .dummy .none .none
  | .decl _ d => .decl .dummy d.erase
  | .empty _ _ implicit => .empty .dummy .none implicit
  | .expr _ e => .expr .dummy e.erase
  | .incDec _ e _ increment => .incDec .dummy e.erase .none increment
  | .assign _ left op _ right => .assign .dummy (left.map Expr.erase) op .none (right.map Expr.erase)

/-! ### The written form has only what is kept -/

theorem Expr.sexp_erase (e : Expr) : e.erase.sexp = e.sexp := by
  induction e with
  | bad | ident | literal => rfl
  | paren id lparen inner rparen ih => rw [erase, sexp, sexp, ih]
  | unary id op opPos operand ih => rw [erase, sexp, sexp, ih]
  | binary id op opPos left right ihleft ihright => rw [erase, sexp, sexp, ihleft, ihright]

theorem map_sexp_erase (es : List Expr) : (es.map Expr.erase).map Expr.sexp = es.map Expr.sexp := by
  rw [List.map_map]
  exact List.map_congr_left fun e _ => e.sexp_erase

theorem Spec.sexp_erase (s : Spec) : s.erase.sexp = s.sexp := by
  have hnames : (s.names.map Ident.erase).map Ident.name = s.names.map Ident.name := by
    rw [List.map_map]
    rfl
  rw [erase, sexp, sexp, hnames, map_sexp_erase]
  cases s.type with
  | none => rfl
  | some type =>
    dsimp only [Option.map_some]
    rw [type.sexp_erase]

theorem Decl.sexp_erase (d : Decl) : d.erase.sexp = d.sexp := by
  cases d with
  | bad => rfl
  | specs id keyword keywordPos lparen entries rparen =>
    have hentries : (entries.map Spec.erase).map Spec.sexp = entries.map Spec.sexp := by
      rw [List.map_map]
      exact List.map_congr_left fun s _ => s.sexp_erase
    rw [erase, sexp, sexp, hentries]

theorem Stmt.sexp_erase (st : Stmt) : st.erase.sexp = st.sexp := by
  cases st with
  | bad | empty => rfl
  | decl id d => exact d.sexp_erase
  | expr id e => exact e.sexp_erase
  | incDec id e opPos increment => rw [erase, sexp, sexp, e.sexp_erase]
  | assign id left op opPos right => rw [erase, sexp, sexp, map_sexp_erase, map_sexp_erase]

end RoseLang
