import Mathlib.Data.List.Forall2
import RoseLang.Syntax.Stmt
import RoseLang.Token.Basic

/-!
# The tokens of a tree

A tree written out as the tokens it stands for, in source order. Of each token it tells the kind, and
the position and the text where the tree keeps them. Terminators are not part of a tree.
-/

namespace RoseLang

/-- What a tree tells of one token. -/
structure Mark where
  kind : Kind
  pos : Option Pos
  text : Option String
  deriving DecidableEq, Repr

namespace Mark

/-- A token that the tree does not keep. -/
def plain (kind : Kind) : Mark := ⟨kind, none, none⟩

/-- A token of which the tree keeps the position. -/
def placed (kind : Kind) (pos : Pos) : Mark := ⟨kind, some pos, none⟩

/-- A token of which the tree keeps position and text. -/
def worded (kind : Kind) (pos : Pos) (text : String) : Mark := ⟨kind, some pos, some text⟩

/-- Whether the token is one of which the mark tells the truth. -/
def Fits (m : Mark) (t : Token) : Prop :=
  m.kind = t.kind ∧ (∀ pos ∈ m.pos, pos = t.pos) ∧ ∀ text ∈ m.text, text = t.text

@[simp] theorem plain_fits_iff {kind : Kind} {t : Token} : (plain kind).Fits t ↔ t.kind = kind := by
  simp [Fits, plain, eq_comm]

@[simp] theorem placed_fits_iff {kind : Kind} {pos : Pos} {t : Token} :
    (placed kind pos).Fits t ↔ t.kind = kind ∧ pos = t.pos := by
  simp [Fits, placed, eq_comm]

@[simp] theorem worded_fits_iff {kind : Kind} {pos : Pos} {text : String} {t : Token} :
    (worded kind pos text).Fits t ↔ t.kind = kind ∧ pos = t.pos ∧ text = t.text := by
  simp [Fits, worded, eq_comm]

/-- Whether the tokens are those that the marks tell of, one by one. -/
def FitAll (ms : List Mark) (ts : List Token) : Prop := List.Forall₂ Fits ms ts

namespace FitAll

@[simp] theorem nil_iff {ts : List Token} : FitAll [] ts ↔ ts = [] := List.forall₂_nil_left_iff

theorem cons_iff {m : Mark} {ms : List Mark} {ts : List Token} :
    FitAll (m :: ms) ts ↔ ∃ t us, ts = t :: us ∧ m.Fits t ∧ FitAll ms us := by
  rw [FitAll, List.forall₂_cons_left_iff]
  constructor
  · rintro ⟨t, us, ht, hus, rfl⟩
    exact ⟨t, us, rfl, ht, hus⟩
  · rintro ⟨t, us, rfl, ht, hus⟩
    exact ⟨t, us, ht, hus, rfl⟩

theorem single_iff {m : Mark} {ts : List Token} : FitAll [m] ts ↔ ∃ t, ts = [t] ∧ m.Fits t := by
  simp [cons_iff]

theorem cons {m : Mark} {ms : List Mark} {t : Token} {ts : List Token} (hm : m.Fits t)
    (hms : FitAll ms ts) : FitAll (m :: ms) (t :: ts) := List.Forall₂.cons hm hms

theorem single {m : Mark} {t : Token} (hm : m.Fits t) : FitAll [m] [t] := cons hm .nil

theorem append {ms ns : List Mark} {ts us : List Token} (hms : FitAll ms ts) (hns : FitAll ns us) :
    FitAll (ms ++ ns) (ts ++ us) := List.rel_append hms hns

theorem append_iff {ms ns : List Mark} {ts : List Token} :
    FitAll (ms ++ ns) ts ↔ ∃ us vs, ts = us ++ vs ∧ FitAll ms us ∧ FitAll ns vs := by
  constructor
  · intro h
    induction ms generalizing ts with
    | nil => exact ⟨[], ts, rfl, .nil, h⟩
    | cons m ms ih =>
      obtain ⟨t, us, rfl, ht, hus⟩ := cons_iff.mp h
      obtain ⟨vs, ws, rfl, hvs, hws⟩ := ih hus
      exact ⟨t :: vs, ws, rfl, hvs.cons ht, hws⟩
  · rintro ⟨us, vs, rfl, hus, hvs⟩
    exact hus.append hvs

end FitAll

end Mark

/-- The marks of several items with commas between them. -/
def listed (items : List (List Mark)) : List Mark := [Mark.plain .comma].intercalate items

@[simp] theorem listed_single (ms : List Mark) : listed [ms] = ms := by simp [listed]

@[simp] theorem listed_cons_cons (ms ns : List Mark) (items : List (List Mark)) :
    listed (ms :: ns :: items) = ms ++ .plain .comma :: listed (ns :: items) := by
  simp [listed, List.intercalate]

def Ident.mark (i : Ident) : Mark := .worded .ident i.pos i.name

def Expr.marks : Expr → List Mark
  | bad .. => []
  | ident _ i => [i.mark]
  | literal _ l => [.worded l.kind.token l.pos l.text]
  | paren _ lparen inner rparen => .placed .lparen lparen :: inner.marks ++ [.placed .rparen rparen]
  | unary _ op opPos operand => .placed op.token opPos :: operand.marks
  | binary _ op opPos left right => left.marks ++ .placed op.token opPos :: right.marks

/-- The values of a spec behind an equals sign, if there are any. -/
def valueMarks (values : List Expr) : List Mark :=
  if values.isEmpty then [] else .plain .assign :: listed (values.map Expr.marks)

def Spec.marks (s : Spec) : List Mark :=
  listed (s.names.map fun i => [i.mark]) ++ s.type.toList.flatMap Expr.marks ++ valueMarks s.values

def Decl.marks : Decl → List Mark
  | .bad .. => []
  | .specs _ keyword keywordPos lparen entries rparen =>
    let inner := entries.flatMap Spec.marks
    .placed keyword.token keywordPos ::
      if lparen.isValid then .placed .lparen lparen :: inner ++ [.placed .rparen rparen] else inner

def Stmt.marks : Stmt → List Mark
  | .bad .. | .empty .. => []
  | .decl _ d => d.marks
  | .expr _ e => e.marks
  | .incDec _ e opPos increment => e.marks ++ [.placed (if increment then .inc else .dec) opPos]
  | .assign _ left op opPos right =>
    listed (left.map Expr.marks) ++ .placed op.token opPos :: listed (right.map Expr.marks)

end RoseLang
