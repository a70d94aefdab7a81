import RoseLang.Proofs.Syntax.Link

/-!
# The grammar

Which tokens are an expression, a type, a spec, a statement and a file, and which tree they stand for:

    File   := Stmt*
    Stmt   := Semi | Simple Semi | Keyword Spec Semi | Keyword '(' Group ')' Semi
    Simple := Expr (',' Expr)* AssignOp Expr (',' Expr)* | Expr | Expr '++' | Expr '--'
    Group  := empty | Spec (Semi Spec)* Semi?
    Spec   := Ident (',' Ident)* Type? ('=' Expr (',' Expr)*)?
    Type   := Ident | '(' Type ')'
    Expr   := Unary (BinaryOp Unary)*
    Unary  := UnaryOp Unary | Ident | Literal | '(' Expr ')'

A tree has the positions and texts of its tokens; how its nodes are numbered and what its names are bound
to is left open. The trees of expressions are those that are grouped by precedence.
-/

namespace RoseLang.Grammar

/-- One or more items with tokens of the kind `sep` between them. -/
inductive Separated {α : Type} (sep : Kind) (Item : List Token → α → Prop) : List Token → List α → Prop where
  | one {ts a} (hitem : Item ts a) : Separated sep Item ts [a]
  | more {ts a t us as} (hitem : Item ts a) (hsep : t.kind = sep) (hrest : Separated sep Item us as) :
      Separated sep Item (ts ++ t :: us) (a :: as)

/-- A single token that is a name. -/
inductive IsName : List Token → Ident → Prop where
  | mk {t i} (hkind : t.kind = .ident) (hpos : i.pos = t.pos) (hname : i.name = t.text) : IsName [t] i

/-- The two productions for expressions. -/
inductive Phrase where
  | unary
  | expr

inductive IsExpr : Phrase → List Token → Expr → Prop where
  | ident {ts i id} (hname : IsName ts i) : IsExpr .unary ts (.ident id i)
  | literal {t kind id} (hkind : LiteralKind.ofToken? t.kind = some kind) :
      IsExpr .unary [t] (.literal id ⟨t.pos, kind, t.text⟩)
  | unary {t op ts e id} (hop : UnaryOp.ofToken? t.kind = some op) (hoperand : IsExpr .unary ts e) :
      IsExpr .unary (t :: ts) (.unary id op t.pos e)
  | paren {l ts e r id} (hl : l.kind = .lparen) (hinner : IsExpr .expr ts e) (hr : r.kind = .rparen) :
      IsExpr .unary (l :: ts ++ [r]) (.paren id l.pos e r.pos)
  | first {ts e} (hfirst : IsExpr .unary ts e) : IsExpr .expr ts e
  | link {ts e t op us operand id} (hleft : IsExpr .expr ts e) (hop : BinaryOp.ofToken? t.kind = some op)
      (hoperand : IsExpr .unary us operand) : IsExpr .expr (ts ++ t :: us) (e.link id op t.pos operand)

inductive IsType : List Token → Expr → Prop where
  | ident {ts i id} (hname : IsName ts i) : IsType ts (.ident id i)
  | paren {l ts e r id} (hl : l.kind = .lparen) (hinner : IsType ts e) (hr : r.kind = .rparen) :
      IsType (l :: ts ++ [r]) (.paren id l.pos e r.pos)

inductive IsTypeOption : List Token → Option Expr → Prop where
  | none : IsTypeOption [] none
  | some {ts e} (htype : IsType ts e) : IsTypeOption ts (some e)

inductive IsValues : List Token → List Expr → Prop where
  | none : IsValues [] []
  | some {t ts es} (hassign : t.kind = .assign) (hvalues : Separated .comma (IsExpr .expr) ts es) :
      IsValues (t :: ts) es

inductive IsSpec : List Token → Spec → Prop where
  | mk {ns names ts type vs values id} (hnames : Separated .comma IsName ns names)
      (htype : IsTypeOption ts type) (hvalues : IsValues vs values) :
      IsSpec (ns ++ ts ++ vs) ⟨id, names, type, values⟩

inductive IsGroup : List Token → List Spec → Prop where
  | empty : IsGroup [] []
  | specs {ts specs} (hspecs : Separated .semi IsSpec ts specs) : IsGroup ts specs
  | closed {ts specs t} (hspecs : Separated .semi IsSpec ts specs) (ht : t.kind = .semi) :
      IsGroup (ts ++ [t]) specs

inductive IsSimple : List Token → Stmt → Prop where
  | assign {ls left t op rs right id} (hleft : Separated .comma (IsExpr .expr) ls left)
      (hop : AssignOp.ofToken? t.kind = some op) (hright : Separated .comma (IsExpr .expr) rs right) :
      IsSimple (ls ++ t :: rs) (.assign id left op t.pos right)
  | expr {ts e id} (hexpr : IsExpr .expr ts e) : IsSimple ts (.expr id e)
  | inc {ts e t id} (hexpr : IsExpr .expr ts e) (ht : t.kind = .inc) :
      IsSimple (ts ++ [t]) (.incDec id e t.pos true)
  | dec {ts e t id} (hexpr : IsExpr .expr ts e) (ht : t.kind = .dec) :
      IsSimple (ts ++ [t]) (.incDec id e t.pos false)

/-- A declaration without its last terminator. -/
inductive IsDecl : List Token → Decl → Prop where
  | spec {k keyword ts spec id} (hk : DeclKeyword.ofToken? k.kind = some keyword) (hspec : IsSpec ts spec) :
      IsDecl (k :: ts) (.specs id keyword k.pos .none [spec] .none)
  | group {k keyword l ts specs r id} (hk : DeclKeyword.ofToken? k.kind = some keyword)
      (hl : l.kind = .lparen) (hgroup : IsGroup ts specs) (hr : r.kind = .rparen) :
      IsDecl (k :: l :: ts ++ [r]) (.specs id keyword k.pos l.pos specs r.pos)

inductive IsStmt : List Token → Stmt → Prop where
  | empty {t id} (ht : t.kind = .semi) : IsStmt [t] (.empty id t.pos t.isImplicitSemi)
  | simple {ts st t} (hsimple : IsSimple ts st) (ht : t.kind = .semi) : IsStmt (ts ++ [t]) st
  | decl {ts d t id} (hdecl : IsDecl ts d) (ht : t.kind = .semi) : IsStmt (ts ++ [t]) (.decl id d)

inductive IsFile : List Token → List Stmt → Prop where
  | nil : IsFile [] []
  | cons {ts st us stmts} (hstmt : IsStmt ts st) (hrest : IsFile us stmts) :
      IsFile (ts ++ us) (st :: stmts)

/-! ### Lists of items -/

section
variable {α β : Type} {sep : Kind} {Item Item' : List Token → α → Prop} {ts : List Token} {as : List α}

theorem Separated.imp (himp : ∀ ts a, Item ts a → Item' ts a) (h : Separated sep Item ts as) :
    Separated sep Item' ts as := by
  induction h with
  | one hitem => exact .one (himp _ _ hitem)
  | more hitem hsep hrest ih => exact .more (himp _ _ hitem) hsep ih

theorem Separated.forall_mem {P : α → Prop} (hP : ∀ ts a, Item ts a → P a) (h : Separated sep Item ts as) :
    ∀ a ∈ as, P a := by
  induction h with
  | one hitem => exact List.forall_mem_singleton.mpr (hP _ _ hitem)
  | more hitem hsep hrest ih => exact List.forall_mem_cons.mpr ⟨hP _ _ hitem, ih⟩

theorem Separated.ne_nil (h : Separated sep Item ts as) : as ≠ [] := by
  cases h <;> exact List.cons_ne_nil _ _

/-- Items with commas between them fit the marks that are listed with commas. -/
theorem Separated.listed {marks : α → List Mark} (hmarks : ∀ ts a, Item ts a → Mark.FitAll (marks a) ts)
    (h : Separated .comma Item ts as) : Mark.FitAll (RoseLang.listed (as.map marks)) ts := by
  induction h with
  | one hitem =>
    rw [List.map_singleton, listed_single]
    exact hmarks _ _ hitem
  | @more ts a t us as hitem hsep hrest ih =>
    obtain ⟨b, bs, rfl⟩ := List.exists_cons_of_ne_nil hrest.ne_nil
    rw [List.map_cons, List.map_cons, listed_cons_cons]
    exact (hmarks _ _ hitem).append (.cons (Mark.plain_fits_iff.mpr hsep) ih)

/-- Replaces items by others of the same tokens. -/
theorem Separated.replace {bs : List β} {Other : List Token → β → Prop}
    (hreplace : List.Forall₂ (fun a b => ∀ ts, Item ts a → Other ts b) as bs) (h : Separated sep Item ts as) :
    Separated sep Other ts bs := by
  induction h generalizing bs with
  | one hitem =>
    cases hreplace with
    | cons hfirst hrest =>
      cases hrest
      exact .one (hfirst _ hitem)
  | more hitem hsep hrest ih =>
    cases hreplace with
    | cons hfirst hreplace => exact .more (hfirst _ hitem) hsep (ih hreplace)

/-- Further items, each behind a separator. -/
def Further (sep : Kind) (Item : List Token → α → Prop) (ts : List Token) (as : List α) : Prop :=
  ∀ us a, Item us a → Separated sep Item (us ++ ts) (a :: as)

theorem further_nil : Further sep Item [] [] := by
  intro us a ha
  rw [List.append_nil]
  exact .one ha

theorem Further.cons {t : Token} {us : List Token} {b : α} (hsep : t.kind = sep) (hitem : Item us b)
    (h : Further sep Item ts as) : Further sep Item (t :: us ++ ts) (b :: as) :=
  fun _ _ ha => .more ha hsep (h us b hitem)

end

/-! ### Expressions -/

theorem IsName.fitAll {ts : List Token} {i : Ident} (h : IsName ts i) : Mark.FitAll [i.mark] ts := by
  obtain ⟨hkind, hpos, hname⟩ := h
  exact .single (Mark.worded_fits_iff.mpr ⟨hkind, hpos, hname⟩)

theorem IsName.ne_nil {ts : List Token} {i : Ident} (h : IsName ts i) : ts ≠ [] := by
  cases h
  exact List.cons_ne_nil _ _

theorem isName_of_fits {i : Ident} {t : Token} (h : i.mark.Fits t) : IsName [t] i := by
  obtain ⟨hkind, hpos, hname⟩ := Mark.worded_fits_iff.mp h
  exact ⟨hkind, hpos, hname⟩

variable {phrase : Phrase} {ts us : List Token} {e left right : Expr} {t : Token} {op : BinaryOp}
  {id : NodeId}

theorem IsExpr.fitAll (h : IsExpr phrase ts e) : Mark.FitAll e.marks ts := by
  induction h with
  | ident hname => exact hname.fitAll
  | literal hkind =>
    refine .single (Mark.worded_fits_iff.mpr ⟨?_, rfl, rfl⟩)
    exact (LiteralKind.token_of_ofToken? hkind).symm
  | unary hop hoperand ih =>
    exact .cons (Mark.placed_fits_iff.mpr ⟨(UnaryOp.token_of_ofToken? hop).symm, rfl⟩) ih
  | paren hl hinner hr ih =>
    refine .append (.cons (Mark.placed_fits_iff.mpr ⟨hl, rfl⟩) ih) (.single ?_)
    exact Mark.placed_fits_iff.mpr ⟨hr, rfl⟩
  | first hfirst ih => exact ih
  | link hleft hop hoperand ihleft ihoperand =>
    rw [Expr.link_marks]
    apply ihleft.append
    refine .cons ?_ ihoperand
    exact Mark.placed_fits_iff.mpr ⟨(BinaryOp.token_of_ofToken? hop).symm, rfl⟩

theorem IsExpr.ne_nil (h : IsExpr phrase ts e) : ts ≠ [] := by
  induction h with
  | ident hname => exact hname.ne_nil
  | first hfirst ih => exact ih
  | _ => simp

theorem IsExpr.complete (h : IsExpr phrase ts e) : e.Complete := by
  induction h with
  | ident hname => trivial
  | literal hkind => trivial
  | unary hop hoperand ih => exact ih
  | paren hl hinner hr ih => exact ih
  | first hfirst ih => exact ih
  | link hleft hop hoperand ihleft ihoperand => exact Expr.link_complete ihleft ihoperand

theorem IsExpr.binaryOp?_eq_none (h : IsExpr .unary ts e) : e.binaryOp? = none := by
  cases h <;> rfl

theorem IsExpr.grouped (h : IsExpr phrase ts e) : e.Grouped := by
  induction h with
  | ident hname => trivial
  | literal hkind => trivial
  | unary hop hoperand ih => exact ⟨hoperand.binaryOp?_eq_none, ih⟩
  | paren hl hinner hr ih => exact ih
  | first hfirst ih => exact ih
  | link hleft hop hoperand ihleft ihoperand =>
    exact Expr.link_grouped ihleft ihoperand hoperand.binaryOp?_eq_none

/-- Two chains with an operator between them that admits both. The induction is on the right one, whose
operators all end up below the one in the middle. -/
theorem IsExpr.binary (hleft : IsExpr .expr ts left) (hop : BinaryOp.ofToken? t.kind = some op)
    (hright : IsExpr phrase us right) (hadmitsLeft : op.AdmitsLeft left)
    (hadmitsRight : op.AdmitsRight right) :
    IsExpr .expr (ts ++ t :: us) (.binary id op t.pos left right) := by
  have hlt : ∀ outer, left.binaryOp? = some outer → op.precedence < outer.rightFloor :=
    fun outer houter => BinaryOp.lt_rightFloor_of_admitsLeft houter hadmitsLeft
  have hunary : ∀ {vs operand}, IsExpr .unary vs operand →
      IsExpr .expr (ts ++ t :: vs) (.binary id op t.pos left operand) := by
    intro vs operand hoperand
    rw [← Expr.link_of_lt hlt]
    exact hleft.link hop hoperand
  induction hright with
  | ident hname => exact hunary (.ident hname)
  | literal hkind => exact hunary (.literal hkind)
  | unary hop' hoperand => exact hunary (.unary hop' hoperand)
  | paren hl hinner hr => exact hunary (.paren hl hinner hr)
  | first hfirst ih => exact ih hadmitsRight
  | @link us right t' op' vs operand id' hright hop' hoperand ih _ =>
    obtain ⟨hle, hadmits⟩ := Expr.admitsRight_of_link hadmitsRight
    have htokens : ts ++ t :: (us ++ t' :: vs) = (ts ++ t :: us) ++ t' :: vs := by
      rw [List.append_assoc, List.cons_append]
    rw [htokens, ← Expr.link_binary hle]
    exact (ih hadmits).link hop' hoperand

private theorem IsExpr.both (h : IsExpr .unary ts e) :
    IsExpr .expr ts e ∧ (e.binaryOp? = none → IsExpr .unary ts e) := ⟨.first h, fun _ => h⟩

/-- A grouped tree without bad parts is the tree of its own tokens. -/
theorem isExpr_of_fitAll (hgrouped : e.Grouped) (hcomplete : e.Complete) (hfit : Mark.FitAll e.marks ts) :
    IsExpr .expr ts e ∧ (e.binaryOp? = none → IsExpr .unary ts e) := by
  induction e generalizing ts with
  | bad id start stop => cases hcomplete
  | ident id i =>
    obtain ⟨t, rfl, ht⟩ := Mark.FitAll.single_iff.mp hfit
    exact IsExpr.both (.ident (isName_of_fits ht))
  | literal id l =>
    obtain ⟨t, rfl, ht⟩ := Mark.FitAll.single_iff.mp hfit
    obtain ⟨hkind, hpos, htext⟩ := Mark.worded_fits_iff.mp ht
    obtain ⟨pos, kind, text⟩ := l
    dsimp only at hkind hpos htext
    subst hpos htext
    exact IsExpr.both (.literal (hkind ▸ LiteralKind.ofToken?_token kind))
  | paren id lparen inner rparen ih =>
    obtain ⟨us, vs, rfl, hus, hvs⟩ := Mark.FitAll.append_iff.mp hfit
    obtain ⟨l, us, rfl, hl, hinner⟩ := Mark.FitAll.cons_iff.mp hus
    obtain ⟨r, rfl, hr⟩ := Mark.FitAll.single_iff.mp hvs
    obtain ⟨hlkind, rfl⟩ := Mark.placed_fits_iff.mp hl
    obtain ⟨hrkind, rfl⟩ := Mark.placed_fits_iff.mp hr
    exact IsExpr.both (.paren hlkind (ih hgrouped hcomplete hinner).1 hrkind)
  | unary id op opPos operand ih =>
    obtain ⟨t, us, rfl, ht, hus⟩ := Mark.FitAll.cons_iff.mp hfit
    obtain ⟨hkind, rfl⟩ := Mark.placed_fits_iff.mp ht
    have hoperand := (ih hgrouped.2 hcomplete hus).2 hgrouped.1
    exact IsExpr.both (.unary (hkind ▸ UnaryOp.ofToken?_token op) hoperand)
  | binary id op opPos left right ihleft ihright =>
    obtain ⟨us, ws, rfl, hus, hws⟩ := Mark.FitAll.append_iff.mp hfit
    obtain ⟨t, vs, rfl, ht, hvs⟩ := Mark.FitAll.cons_iff.mp hws
    obtain ⟨hkind, rfl⟩ := Mark.placed_fits_iff.mp ht
    obtain ⟨hadmitsLeft, hadmitsRight, hl, hr⟩ := hgrouped
    have hleft := (ihleft hl hcomplete.1 hus).1
    have hright := (ihright hr hcomplete.2 hvs).1
    refine ⟨hleft.binary (hkind ▸ BinaryOp.ofToken?_token op) hright hadmitsLeft hadmitsRight, ?_⟩
    intro hnone
    cases hnone

/-! ### Statements -/

/-- A spec starts with a name. -/
theorem IsSpec.head {s : Spec} (h : IsSpec ts s) : ∃ t us, ts = t :: us ∧ t.kind = .ident := by
  obtain ⟨hnames, -, -⟩ := h
  cases hnames with
  | one hname =>
    obtain ⟨hkind, -, -⟩ := hname
    exact ⟨_, _, rfl, hkind⟩
  | more hname hsep hrest =>
    obtain ⟨hkind, -, -⟩ := hname
    exact ⟨_, _, rfl, hkind⟩

theorem IsSimple.incDec {e : Expr} {t : Token} {id : NodeId} {increment : Bool} (hexpr : IsExpr .expr ts e)
    (ht : t.kind = if increment then .inc else .dec) : IsSimple (ts ++ [t]) (.incDec id e t.pos increment) := by
  cases increment with
  | true => exact .inc hexpr ht
  | false => exact .dec hexpr ht

theorem IsSimple.ne_nil {st : Stmt} (h : IsSimple ts st) : ts ≠ [] := by
  cases h with
  | expr hexpr => exact hexpr.ne_nil
  | _ => simp

theorem IsDecl.ne_nil {d : Decl} (h : IsDecl ts d) : ts ≠ [] := by
  cases h <;> simp

theorem IsStmt.ne_nil {st : Stmt} (h : IsStmt ts st) : ts ≠ [] := by
  cases h <;> simp

end RoseLang.Grammar
