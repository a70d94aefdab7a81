import RoseLang.Proofs.Parse.Grouping
import RoseLang.Proofs.Scope.Declarations
import RoseLang.Proofs.Syntax.Shape

/-!
# What looking up leaves alone

To look a name up, or to declare it, gives it a binding and changes nothing else of the tree. So whatever does
not ask for bindings can be proved of a tree before its names are looked up.
-/

namespace RoseLang

def Ident.unbound (i : Ident) : Ident := { i with binding := .unbound }

/-- The expression before its names have been looked up. -/
def Expr.unbound : Expr → Expr
  | bad id start stop => .bad id start stop
  | ident id i => .ident id i.unbound
  | literal id l => .literal id l
  | paren id lparen inner rparen => .paren id lparen inner.unbound rparen
  | unary id op opPos operand => .unary id op opPos operand.unbound
  | binary id op opPos left right => .binary id op opPos left.unbound right.unbound

theorem Expr.erase_unbound (e : Expr) : e.unbound.erase = e.erase := by
  induction e with
  | bad | ident | literal => rfl
  | paren id lparen inner rparen ih => rw [unbound, erase, erase, ih]
  | unary id op opPos operand ih => rw [unbound, erase, erase, ih]
  | binary id op opPos left right ihleft ihright => rw [unbound, erase, erase, ihleft, ihright]

theorem Expr.pos_unbound (e : Expr) : e.unbound.pos = e.pos := by
  induction e with
  | binary id op opPos left right ihleft _ => exact ihleft
  | _ => rfl

theorem Expr.stop_unbound (e : Expr) : e.unbound.stop = e.stop := by
  induction e with
  | unary id op opPos operand ih => exact ih
  | binary id op opPos left right _ ihright => exact ihright
  | _ => rfl

section
variable {e e' : Expr} (h : e'.unbound = e.unbound)
include h

theorem Expr.erase_eq_of_unbound : e'.erase = e.erase := by
  rw [← erase_unbound e', h, erase_unbound]

theorem Expr.levels_eq_of_unbound : e'.levels = e.levels := by
  rw [← levels_erase e', erase_eq_of_unbound h, levels_erase]

theorem Expr.spine_eq_of_unbound : e'.spine = e.spine := by
  rw [← spine_erase e', erase_eq_of_unbound h, spine_erase]

theorem Expr.complete_iff_of_unbound : e'.Complete ↔ e.Complete := by
  rw [← complete_erase e', erase_eq_of_unbound h, complete_erase]

end

theorem Resolver.resolve_unbound (r : Resolver) (i : Ident) (collect : Bool) :
    (r.resolve i collect).1.unbound = i.unbound := by
  obtain ⟨binding, h⟩ := r.ident_resolve i collect
  rw [h, Ident.unbound, Ident.unbound]

theorem Resolver.declare_unbound (r : Resolver) (i : Ident) (kind : ObjectKind) (decl : NodeId) (index : Nat) :
    (r.declare i kind decl index).1.unbound = i.unbound := by
  obtain ⟨binding, h⟩ : ∃ binding, (r.declare i kind decl index).1 = { i with binding } := r.ident_declare i
  rw [h, Ident.unbound, Ident.unbound]

namespace Parse

theorem resolveExpr_unbound {e e' : Expr} {s s' : State} (h : resolveExpr e s = .ok e' s') :
    e'.unbound = e.unbound ∧ s'.tokens = s.tokens := by
  cases e with
  | ident id i =>
    rw [resolveExpr, resolve_bind, pure_eq_ok] at h
    obtain ⟨rfl, rfl⟩ := h
    exact ⟨congrArg (Expr.ident id) (s.names.resolve_unbound i true), rfl⟩
  | _ =>
    rw [resolveExpr, pure_eq_ok] at h
    · obtain ⟨rfl, rfl⟩ := h
      exact ⟨rfl, rfl⟩
    · exact fun _ _ h => by cases h

theorem resolveIf_unbound {now : Bool} {e e' : Expr} {s s' : State} (h : resolveIf now e s = .ok e' s') :
    e'.unbound = e.unbound ∧ s'.tokens = s.tokens := by
  rw [resolveIf] at h
  split at h
  · exact resolveExpr_unbound h
  · obtain ⟨rfl, rfl⟩ := pure_eq_ok.mp h
    exact ⟨rfl, rfl⟩

theorem reportAny_tokens {fault : Option (Pos × Fault)} {s s' : State} (h : reportAny fault s = .ok () s') :
    s'.tokens = s.tokens := by
  cases fault with
  | none =>
    obtain ⟨-, rfl⟩ := pure_eq_ok.mp h
    rfl
  | some f =>
    rcases report_eq_ok h with rfl | ⟨rfl, -⟩
    · rfl
    · rfl

theorem resolveType_unbound {type type' : Expr} {s s' : State} (h : resolveType type s = .ok type' s') :
    type'.unbound = type.unbound ∧ s'.tokens = s.tokens := by
  induction type generalizing type' s s' with
  | paren id lparen inner rparen ih =>
    obtain ⟨inner', t, hinner, h⟩ := bind_eq_ok.mp h
    obtain ⟨rfl, rfl⟩ := pure_eq_ok.mp h
    obtain ⟨hunbound, htokens⟩ := ih hinner
    exact ⟨by rw [Expr.unbound, Expr.unbound, hunbound], htokens⟩
  | ident id i =>
    rw [resolveType] at h
    split at h
    · obtain ⟨rfl, rfl⟩ := pure_eq_ok.mp h
      exact ⟨rfl, rfl⟩
    · rw [resolve_bind] at h
      obtain ⟨_, t, hreport, h⟩ := bind_eq_ok.mp h
      obtain ⟨rfl, rfl⟩ := pure_eq_ok.mp h
      exact ⟨congrArg (Expr.ident id) (s.names.resolve_unbound i true), (reportAny_tokens hreport :)⟩
  | _ =>
    obtain ⟨rfl, rfl⟩ := pure_eq_ok.mp h
    exact ⟨rfl, rfl⟩

end Parse

end RoseLang
