import RoseLang.Proofs.Parse.Binding
import RoseLang.Proofs.Syntax.Height

/-!
# The height of what a parse makes

No tree that a parse makes takes more nesting levels than there are, but for one that an operator takes for
which there is no room left: it keeps its place in the tree, with a bad operand. So a tree that leans to the
right is no higher than the number of levels, and any other one at most as high as that many levels allow.
-/

namespace RoseLang

/-- The expression takes at most `room` levels, or one more if it has a bad part. -/
structure Expr.Within (e : Expr) (room : Nat) : Prop where
  levels_le : e.levels ≤ room + 1
  complete : e.Complete → e.levels ≤ room

namespace Expr

theorem within_of_flat {e : Expr} (h : e.levels = 0) (room : Nat) : e.Within room :=
  ⟨h ▸ Nat.zero_le _, fun _ => h ▸ Nat.zero_le _⟩

theorem Within.mono {e : Expr} {room room' : Nat} (h : e.Within room) (hle : room ≤ room') : e.Within room' :=
  ⟨Nat.le_trans h.levels_le (Nat.succ_le_succ hle), fun hall => Nat.le_trans (h.complete hall) hle⟩

theorem Within.congr {e e' : Expr} {room : Nat} (h : e.Within room) (hunbound : e'.unbound = e.unbound) :
    e'.Within room := by
  have hlevels := levels_eq_of_unbound hunbound
  exact ⟨hlevels ▸ h.levels_le, fun hall => hlevels ▸ h.complete ((complete_iff_of_unbound hunbound).mp hall)⟩

theorem Within.paren {inner : Expr} {room : Nat} (h : inner.Within room) (id : NodeId) (lparen rparen : Pos) :
    (paren id lparen inner rparen).Within (room + 1) :=
  ⟨Nat.succ_le_succ h.levels_le, fun hall => Nat.succ_le_succ (h.complete hall)⟩

theorem Within.unary {operand : Expr} {room : Nat} (h : operand.Within room) (id : NodeId) (op : UnaryOp)
    (opPos : Pos) : (unary id op opPos operand).Within (room + 1) :=
  ⟨Nat.succ_le_succ h.levels_le, fun hall => Nat.succ_le_succ (h.complete hall)⟩

/-- An operator with `room` levels left for its right operand, its own included. -/
theorem Within.binary {left right : Expr} {room total : Nat} (hleft : left.Within total)
    (htotal : left.spine + (room + 1) ≤ total) (hright : right.Within room) (id : NodeId) (op : BinaryOp)
    (opPos : Pos) : (binary id op opPos left right).Within total := by
  refine ⟨?_, fun hall => ?_⟩
  · have hl := hleft.levels_le
    have hr := hright.levels_le
    rw [levels]
    omega
  · have hl := hleft.complete hall.1
    have hr := hright.complete hall.2
    rw [levels]
    omega

/-- An operator for which there is no level left. -/
theorem Within.binary_bad {left : Expr} {total : Nat} (hleft : left.Within total) (htotal : left.spine ≤ total)
    (id badId : NodeId) (op : BinaryOp) (opPos start stop : Pos) :
    (Expr.binary id op opPos left (bad badId start stop)).Within total := by
  refine ⟨?_, fun hall => hall.2.elim⟩
  have hl := hleft.levels_le
  rw [levels, levels]
  omega

end Expr

namespace Parse

/-- What is made of each part. The operators on the spine of a left operand have taken levels of their own, and
together with those that are left they are not more than `total`. -/
private abbrev Part.Fits (room : Nat) (e : Expr) : Part → Prop
  | unary _ => e.Within room ∧ e.spine = 0
  | chain _ _ left => ∀ total, left.Within total → left.spine + room ≤ total → e.Within total
  | operand _ _ => e.Within room

private theorem Runs.fits {room : Nat} {part : Part} {s s' : State} {e : Expr} (h : Runs room part s e s') :
    part.Fits room e := by
  have hflat : ∀ {e : Expr} {room : Nat}, e.levels = 0 → e.spine = 0 → e.Within room ∧ e.spine = 0 :=
    fun hlevels hspine => ⟨Expr.within_of_flat hlevels _, hspine⟩
  induction h with
  | literal => exact hflat rfl rfl
  | name hkind hname hresolve =>
    obtain rfl | ⟨id, i, rfl⟩ := resolveIf_eq_ok hresolve
    all_goals exact hflat rfl rfl
  | missing hop hlparen hliteral hident hskipped =>
    obtain ⟨t, -, rfl, -⟩ := skippedExpr_eq_ok hskipped
    exact hflat rfl rfl
  | tooDeep hopens hskipped =>
    obtain ⟨t, -, rfl, -⟩ := skippedExpr_eq_ok hskipped
    exact hflat rfl rfl
  | sign hop hoperand ih => exact ⟨ih.1.unary _ _ _, rfl⟩
  | paren hlparen hinner hrparen ih => exact ⟨Expr.Within.paren ih _ _ _, rfl⟩
  | stop hstop => exact fun total hleft _ => hleft
  | noRoom hop hfloor hexpect hresolve hskipped =>
    intro total hleft htotal
    obtain ⟨w, -, rfl, -⟩ := skippedExpr_eq_ok hskipped
    have hunbound := (resolveIf_unbound hresolve).1
    refine (hleft.congr hunbound).binary_bad ?_ _ _ _ _ _ _
    rw [Expr.spine_eq_of_unbound hunbound]
    exact htotal
  | @operator room floor lhs s t u v s' op opPos left left' right e hop hfloor hexpect hresolve hright hrest
      ihright ihrest =>
    intro total hleft htotal
    have hunbound := (resolveIf_unbound hresolve).1
    have hspine := Expr.spine_eq_of_unbound hunbound
    have hjoined := (hleft.congr hunbound).binary (by omega) ihright v.nextId op opPos
    refine ihrest total hjoined ?_
    rw [Expr.spine]
    omega
  | @operand room floor lhs s t u first e hfirst hrest ihfirst ihrest =>
    obtain ⟨hwithin, hspine⟩ := ihfirst
    exact ihrest room hwithin (by omega)

theorem expr_within {lhs : Bool} {s s' : State} {e : Expr} (h : expr lhs s = .ok e s') :
    e.Within maxDepth := Expr.Within.mono (expr_runs h).fits (Nat.sub_le _ _)

theorem TypeRuns.within {room : Nat} {s s' : State} {type : Expr} (h : TypeRuns room s type s') :
    type.Within room := by
  induction h with
  | name => exact Expr.within_of_flat rfl _
  | tooDeep hlparen hskipped =>
    obtain ⟨t, -, rfl, -⟩ := skippedExpr_eq_ok hskipped
    exact Expr.within_of_flat rfl 0
  | paren hlparen hinner hrparen ih => exact ih.paren _ _ _
  | missing hlparen hstart hskipped hrparen =>
    obtain ⟨t, -, rfl, -⟩ := skippedExpr_eq_ok hskipped
    exact (Expr.within_of_flat rfl _).paren _ _ _

theorem type?_within {s s' : State} {type : Expr} (h : type? s = .ok (some type) s') : type.Within maxDepth := by
  obtain ⟨bare, t, type, hsome, hbare, htype⟩ | ⟨hnone, -⟩ := type?_runs h
  · cases hsome
    exact (hbare.within.mono (Nat.sub_le _ _)).congr (resolveType_unbound htype).1
  · cases hnone

end Parse

open Parse

/-- No expression or type of a file takes more nesting levels than there are, one more at most if it has a bad
part. So it is no higher than that if it leans to the right, and else its height is bounded by the square of
the number of levels. -/
theorem SourceFile.parse_height (file : SourceFile) (source : String) (allErrors : Bool) :
    ∀ st ∈ (file.parse source allErrors).file.stmts, ∀ e ∈ st.exprs,
      (e.Complete → e.LeansRight → e.height ≤ maxDepth) ∧ (e.LeansRight → e.height ≤ maxDepth + 1) ∧
        2 * e.height ≤ (maxDepth + 1) * (maxDepth + 4) := by
  have hwithin : ∀ st ∈ (file.parse source allErrors).file.stmts, ∀ e ∈ st.exprs, e.Within maxDepth := by
    refine forall_stmts_parse (fun s st s' hs hst => ?_) file source allErrors
    exact forall_exprs_stmt (fun _ _ _ _ _ h => expr_within h) (fun _ _ _ _ h => type?_within h)
      (fun _ _ => Expr.within_of_flat rfl maxDepth) hs hst
  intro st hst e he
  obtain ⟨hle, hcomplete⟩ := hwithin st hst e he
  refine ⟨fun hall hleans => ?_, fun hleans => ?_, ?_⟩
  · exact Nat.le_trans (Expr.height_le_levels hleans) (hcomplete hall)
  · exact Nat.le_trans (Expr.height_le_levels hleans) hle
  · exact Nat.le_trans e.two_mul_height_le (Nat.mul_le_mul hle (Nat.add_le_add_right hle 3))

theorem SourceFile.parse_height_right :
    let file : SourceFile := ⟨"", 1, 14, .ofText "a ** (b ** -c)"⟩
    let c : Expr := .unary 6 .neg ⟨12⟩ (.ident 5 ⟨4, ⟨13⟩, "c", .unresolved⟩)
    let inner : Expr := .binary 7 .exp ⟨9⟩ (.ident 3 ⟨2, ⟨7⟩, "b", .unresolved⟩) c
    let e : Expr := .binary 9 .exp ⟨3⟩ (.ident 1 ⟨0, ⟨1⟩, "a", .unresolved⟩) (.paren 8 ⟨6⟩ inner ⟨14⟩)
    (file.parse "a ** (b ** -c)" false).file.stmts = [.expr 10 e] ∧ e.Complete ∧ e.LeansRight ∧
      e.height = 4 ∧ e.height ≤ maxDepth := by
  intro file c inner e
  have hstmts : (file.parse "a ** (b ** -c)" false).file.stmts = [.expr 10 e] := by decide +kernel
  have hcomplete : e.Complete := by simp [e, inner, c, Expr.Complete]
  have hleans : e.LeansRight := by simp [e, inner, c, Expr.LeansRight, Expr.height]
  refine ⟨hstmts, hcomplete, hleans, rfl, ?_⟩
  have hmem : Stmt.expr 10 e ∈ (file.parse "a ** (b ** -c)" false).file.stmts := by
    rw [hstmts]
    exact List.mem_singleton_self _
  exact (parse_height file _ false _ hmem e (List.mem_singleton_self e)).1 hcomplete hleans

/-- The operator comes on top of signs that have taken all levels and left them again. -/
theorem SourceFile.parse_height_left :
    let source := String.ofList (List.replicate 128 '~' ++ ['a', '+', 'b'])
    let file : SourceFile := ⟨"", 1, 131, .ofText source⟩
    SourceFile.ofText "" 1 source = .ok file ∧ (file.parse source false).errors = [] ∧
      ¬ ∀ st ∈ (file.parse source false).file.stmts, ∀ e ∈ st.exprs, e.height ≤ maxDepth := by
  intro source file
  refine ⟨by decide +kernel, by decide +kernel, by decide +kernel⟩

end RoseLang
