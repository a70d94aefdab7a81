import Mathlib.Data.List.Forall2
import RoseLang.Syntax.Sexp

/-!
# Trees that differ in their positions only

Two trees are alike if they are the same but for their positions, numbers and bindings included, and the
positions at the same place of both correspond to each other. What corresponds is a parameter: the same place of
a text that has been moved as a whole, or the same token of a text that is laid out anew.
-/

namespace RoseLang

section
variable (P : Pos → Pos → Prop)

structure Ident.Alike (i i' : Ident) : Prop where
  id : i.id = i'.id
  pos : P i.pos i'.pos
  name : i.name = i'.name
  binding : i.binding = i'.binding

structure Literal.Alike (l l' : Literal) : Prop where
  pos : P l.pos l'.pos
  kind : l.kind = l'.kind
  text : l.text = l'.text

inductive Expr.Alike : Expr → Expr → Prop where
  | bad {id : NodeId} {start start' stop stop' : Pos} (hstart : P start start') (hstop : P stop stop') :
      Alike (.bad id start stop) (.bad id start' stop')
  | ident {id : NodeId} {i i' : Ident} (h : i.Alike P i') : Alike (.ident id i) (.ident id i')
  | literal {id : NodeId} {l l' : Literal} (h : l.Alike P l') : Alike (.literal id l) (.literal id l')
  | paren {id : NodeId} {lparen lparen' rparen rparen' : Pos} {inner inner' : Expr} (hlparen : P lparen lparen')
      (hinner : Alike inner inner') (hrparen : P rparen rparen') :
      Alike (.paren id lparen inner rparen) (.paren id lparen' inner' rparen')
  | unary {id : NodeId} {op : UnaryOp} {opPos opPos' : Pos} {operand operand' : Expr} (hopPos : P opPos opPos')
      (hoperand : Alike operand operand') : Alike (.unary id op opPos operand) (.unary id op opPos' operand')
  | binary {id : NodeId} {op : BinaryOp} {opPos opPos' : Pos} {left left' right right' : Expr}
      (hopPos : P opPos opPos') (hleft : Alike left left') (hright : Alike right right') :
      Alike (.binary id op opPos left right) (.binary id op opPos' left' right')

structure Spec.Alike (s s' : Spec) : Prop where
  id : s.id = s'.id
  names : List.Forall₂ (Ident.Alike P) s.names s'.names
  type : Option.Rel (Expr.Alike P) s.type s'.type
  values : List.Forall₂ (Expr.Alike P) s.values s'.values

/-- Only the parentheses that a single spec does not have are nowhere. -/
inductive Decl.Alike : Decl → Decl → Prop where
  | bad {id : NodeId} {start start' stop stop' : Pos} (hstart : P start start') (hstop : P stop stop') :
      Alike (.bad id start stop) (.bad id start' stop')
  | single {id : NodeId} {keyword : DeclKeyword} {keywordPos keywordPos' : Pos} {entry entry' : Spec}
      (hkeywordPos : P keywordPos keywordPos') (hentry : entry.Alike P entry') :
      Alike (.specs id keyword keywordPos .none [entry] .none) (.specs id keyword keywordPos' .none [entry'] .none)
  | group {id : NodeId} {keyword : DeclKeyword} {keywordPos keywordPos' lparen lparen' rparen rparen' : Pos}
      {entries entries' : List Spec} (hkeywordPos : P keywordPos keywordPos') (hlparen : P lparen lparen')
      (hentries : List.Forall₂ (Spec.Alike P) entries entries') (hrparen : P rparen rparen') :
      Alike (.specs id keyword keywordPos lparen entries rparen)
        (.specs id keyword keywordPos' lparen' entries' rparen')

inductive Stmt.Alike : Stmt → Stmt → Prop where
  | bad {id : NodeId} {start start' stop stop' : Pos} (hstart : P start start') (hstop : P stop stop') :
      Alike (.bad id start stop) (.bad id start' stop')
  | decl {id : NodeId} {d d' : Decl} (h : d.Alike P d') : Alike (.decl id d) (.decl id d')
  | empty {id : NodeId} {semi semi' : Pos} {implicit : Bool} (hsemi : P semi semi') :
      Alike (.empty id semi implicit) (.empty id semi' implicit)
  | expr {id : NodeId} {e e' : Expr} (h : e.Alike P e') : Alike (.expr id e) (.expr id e')
  | incDec {id : NodeId} {e e' : Expr} {opPos opPos' : Pos} {increment : Bool} (h : e.Alike P e')
      (hopPos : P opPos opPos') : Alike (.incDec id e opPos increment) (.incDec id e' opPos' increment)
  | assign {id : NodeId} {left left' right right' : List Expr} {op : AssignOp} {opPos opPos' : Pos}
      (hleft : List.Forall₂ (Expr.Alike P) left left') (hopPos : P opPos opPos')
      (hright : List.Forall₂ (Expr.Alike P) right right') :
      Alike (.assign id left op opPos right) (.assign id left' op opPos' right')

end

variable {P : Pos → Pos → Prop}

theorem Expr.Alike.pos {e e' : Expr} (h : e.Alike P e') : P e.pos e'.pos := by
  induction h with
  | bad hstart hstop => exact hstart
  | ident h => exact h.pos
  | literal h => exact h.pos
  | paren hlparen hinner hrparen => exact hlparen
  | unary hopPos hoperand => exact hopPos
  | binary hopPos hleft hright ihleft ihright => exact ihleft

/-! ### S-expressions -/

theorem map_eq_map_of_forall₂ {α β : Type} {R : α → α → Prop} {f : α → β} {as bs : List α}
    (h : List.Forall₂ R as bs) (hf : ∀ {a b}, R a b → f a = f b) : as.map f = bs.map f := by
  have hmap : List.Forall₂ Eq (as.map f) (bs.map f) := List.rel_map (R := R) (fun _ _ hab => hf hab) h
  rwa [List.forall₂_eq_eq_eq] at hmap

theorem Expr.Alike.sexp {e e' : Expr} (h : e.Alike P e') : e.sexp = e'.sexp := by
  induction h with
  | bad => rfl
  | ident h => exact h.name
  | literal h => exact h.text
  | paren hlparen hinner hrparen ih => rw [Expr.sexp, Expr.sexp, ih]
  | unary hopPos hoperand ih => rw [Expr.sexp, Expr.sexp, ih]
  | binary hopPos hleft hright ihleft ihright => rw [Expr.sexp, Expr.sexp, ihleft, ihright]

theorem Spec.Alike.sexp {s s' : Spec} (h : s.Alike P s') : s.sexp = s'.sexp := by
  have hnames := map_eq_map_of_forall₂ h.names Ident.Alike.name
  have hvalues := map_eq_map_of_forall₂ h.values Expr.Alike.sexp
  have htype := h.type
  rw [Spec.sexp, Spec.sexp, hnames, hvalues]
  generalize s.type = type, s'.type = type' at htype ⊢
  cases htype with
  | none => rfl
  | some he =>
    dsimp only
    rw [he.sexp]

theorem Decl.Alike.sexp {d d' : Decl} (h : d.Alike P d') : d.sexp = d'.sexp := by
  cases h with
  | bad => rfl
  | single hkeywordPos hentry =>
    rw [Decl.sexp, Decl.sexp, List.map_singleton, List.map_singleton, hentry.sexp]
  | group hkeywordPos hlparen hentries hrparen =>
    rw [Decl.sexp, Decl.sexp, map_eq_map_of_forall₂ hentries Spec.Alike.sexp]

theorem Stmt.Alike.sexp {s s' : Stmt} (h : s.Alike P s') : s.sexp = s'.sexp := by
  cases h with
  | bad | empty => rfl
  | decl h => exact h.sexp
  | expr h => exact h.sexp
  | incDec h hopPos => rw [Stmt.sexp, Stmt.sexp, h.sexp]
  | assign hleft hopPos hright =>
    rw [Stmt.sexp, Stmt.sexp, map_eq_map_of_forall₂ hleft Expr.Alike.sexp,
      map_eq_map_of_forall₂ hright Expr.Alike.sexp]

end RoseLang
