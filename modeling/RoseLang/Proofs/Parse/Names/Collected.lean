import Mathlib.Data.List.Flatten
import RoseLang.Proofs.Parse.Append.File
import RoseLang.Proofs.Parse.Names.Resolution

/-!
# The order of unresolved names

A parse lists the names that have no declaration in the order in which it looks them up. This is the order of the
text, except on the left of an assignment: a name that is an element there is only looked up when the list has
been read, hence after the names inside the other elements, wherever these stand.
-/

namespace RoseLang

/-- Both names stand on the left of the assignment, but `i` is looked up after `j`: it is an element itself, and
`j` is inside one. -/
def Stmt.Defers : Stmt → Ident → Ident → Prop
  | .assign _ left .., i, j =>
    ∃ e ∈ left, e.ident? = some i ∧ ∃ e' ∈ left, e'.ident? = none ∧ j ∈ e'.idents
  | _, _, _ => False

/-- One identifier stands before another in the text. -/
def Use.Before (u v : Use) : Prop := u.ident.pos.index < v.ident.pos.index

theorem Sits.pairwise {lo hi : Nat} {es : List Event} (h : Sits lo es hi) : (usesIn es).Pairwise Use.Before := by
  induction es generalizing lo with
  | nil => exact .nil
  | cons e es ih =>
    cases e with
    | use u =>
      refine .cons (fun v hv => ?_) (ih h.2)
      exact (h.2.le_of_mem (mem_usesIn.mp hv)).1
    | declare x => exact ih h.2

/-! ### The names of one statement -/

namespace Expr

theorem settled_sublist (es : List Expr) : (es.flatMap (settled true)).Sublist (es.flatMap (uses false)) := by
  refine List.Sublist.flatMap_right es fun e _ => ?_
  rw [← settled_append_waiting]
  exact List.sublist_append_left _ _

theorem waiting_sublist (es : List Expr) : (es.flatMap waiting).Sublist (es.flatMap (uses false)) := by
  refine List.Sublist.flatMap_right es fun e _ => ?_
  rw [← settled_append_waiting]
  exact List.sublist_append_right _ _

theorem mem_settled {e : Expr} {u : Use} : u ∈ e.settled true ↔ e.ident? = none ∧ u ∈ e.uses false := by
  rw [settled, Bool.true_and]
  cases e.ident? <;> simp

theorem mem_waiting {e : Expr} {u : Use} : u ∈ e.waiting ↔ ∃ i, e.ident? = some i ∧ u = ⟨i, false⟩ := by
  cases e with
  | ident id i => simp [waiting, ident?, uses, idents]
  | _ => simp [waiting, ident?]

end Expr

namespace Stmt

variable {st : Stmt} {id : NodeId} {left right : List Expr} {op : AssignOp} {opPos : Pos} {i j : Ident}

theorem defers_of_mem {u v : Use} (hu : u ∈ left.flatMap Expr.waiting)
    (hv : v ∈ left.flatMap (Expr.settled true)) : (assign id left op opPos right).Defers u.ident v.ident := by
  obtain ⟨e, he, hu⟩ := List.mem_flatMap.mp hu
  obtain ⟨e', he', hv⟩ := List.mem_flatMap.mp hv
  obtain ⟨i, hi, rfl⟩ := Expr.mem_waiting.mp hu
  obtain ⟨hnone, hv⟩ := Expr.mem_settled.mp hv
  obtain ⟨j, hj, rfl⟩ := List.mem_map.mp hv
  exact ⟨e, he, hi, e', he', hnone, hj⟩

/-- The name that is deferred comes later in the order of the look-ups. -/
theorem Defers.sublist (h : st.Defers i j) : [⟨j, false⟩, ⟨i, false⟩].Sublist st.lookups := by
  cases st with
  | assign id left op opPos right =>
    obtain ⟨e, he, hi, e', he', hnone, hj⟩ := h
    have hsettled : ⟨j, false⟩ ∈ left.flatMap (Expr.settled true) :=
      List.mem_flatMap.mpr ⟨e', he', Expr.mem_settled.mpr ⟨hnone, List.mem_map_of_mem hj⟩⟩
    have hwaiting : ⟨i, false⟩ ∈ left.flatMap Expr.waiting :=
      List.mem_flatMap.mpr ⟨e, he, Expr.mem_waiting.mpr ⟨i, hi, rfl⟩⟩
    have hlate := (List.singleton_sublist.mpr hsettled).append (List.singleton_sublist.mpr hwaiting)
    exact hlate.trans (List.sublist_append_left _ _)
  | _ => cases h

/-- Where the names of a statement stand in order, they are looked up in this order, unless one is deferred. -/
theorem pairwise_lookups (h : st.uses.Pairwise Use.Before) :
    st.lookups.Pairwise fun u v => u.Before v ∨ st.Defers v.ident u.ident := by
  cases st with
  | assign id left op opPos right =>
    rw [uses, List.flatMap_append, List.pairwise_append] at h
    obtain ⟨hleft, hright, hacross⟩ := h
    rw [lookups, List.pairwise_append]
    refine ⟨?_, hright.imp .inl, fun u hu v hv => ?_⟩
    · rw [Expr.lateUses, List.pairwise_append]
      -- Of a settled and a waiting name the second one is deferred, wherever the two stand.
      refine ⟨?_, ?_, fun u hu v hv => .inr (defers_of_mem hv hu)⟩
      · exact (hleft.sublist (Expr.settled_sublist left)).imp .inl
      · exact (hleft.sublist (Expr.waiting_sublist left)).imp .inl
    · exact .inl (hacross u ((Expr.lateUses_perm left).mem_iff.mp hu) v hv)
  | _ => exact h.imp .inl

end Stmt

/-! ### The names of a file -/

theorem pairwise_lookups {stmts : List Stmt} (h : (stmts.flatMap Stmt.uses).Pairwise Use.Before) :
    (stmts.flatMap Stmt.lookups).Pairwise fun u v => u.Before v ∨ ∃ st ∈ stmts, st.Defers v.ident u.ident := by
  obtain ⟨hwithin, hacross⟩ := List.pairwise_flatMap.mp h
  refine List.pairwise_flatMap.mpr ⟨fun st hst => ?_, hacross.imp fun {st st'} hbefore u hu v hv => ?_⟩
  · exact (Stmt.pairwise_lookups (hwithin st hst)).imp fun hor => hor.imp_right fun hdefers => ⟨st, hst, hdefers⟩
  · exact .inl (hbefore u (st.lookups_perm.mem_iff.mp hu) v (st'.lookups_perm.mem_iff.mp hv))

theorem pairwise_unresolvedIn {us : List Use} {R : Ident → Ident → Prop}
    (h : us.Pairwise fun u v => R u.ident v.ident) : (unresolvedIn us).Pairwise R :=
  (List.pairwise_map.mpr h).filter _

theorem sublist_unresolvedIn {us : List Use} {i j : Ident} {inType inType' : Bool}
    (h : [⟨i, inType⟩, ⟨j, inType'⟩].Sublist us) (hi : i.binding = .unresolved) (hj : j.binding = .unresolved) :
    [i, j].Sublist (unresolvedIn us) := by
  have hkept : unresolvedIn [⟨i, inType⟩, ⟨j, inType'⟩] = [i, j] := by simp [unresolvedIn, hi, hj]
  rw [← hkept]
  exact (h.map Use.ident).filter _

theorem binding_of_mem_unresolvedIn {us : List Use} {i : Ident} (h : i ∈ unresolvedIn us) :
    i.binding = .unresolved :=
  (mem_unresolvedIn.mp h).choose_spec.2.2

open Parse

variable {name source : String} {base : Nat} {file : SourceFile} {allErrors : Bool}

theorem SourceFile.pairwise_uses (hfile : SourceFile.ofText name base source = .ok file)
    (h : (file.parse source allErrors).isOk = true) :
    ((file.parse source allErrors).file.stmts.flatMap Stmt.uses).Pairwise Use.Before := by
  obtain ⟨-, hisFile, -⟩ := SourceFile.parse_sound h
  have hfits : (⟨file.base⟩ : Pos).index + Text.utf8Length source.toList ≤ Pos.last.index := fits_of_ofText hfile
  obtain ⟨hi, hruns⟩ := Lexer.runs_tokenize hfits
  have hpairwise := (hisFile.sits hruns).pairwise
  rwa [usesIn_flatMap usesIn_events] at hpairwise

theorem SourceFile.collected_of_isOk (h : (file.parse source allErrors).isOk = true) :
    (file.parse source allErrors).file.unresolved =
      unresolvedIn ((file.parse source allErrors).file.stmts.flatMap Stmt.lookups) := by
  have hclean := (isOk_parse file source allErrors).mp h
  exact (follows_lastState (findings_firstState_of_clean hclean) (.inr hclean)).collected hclean

/-- The unresolved names are listed in the order of the text, but for those that are elements of the left-hand
side of an assignment: these come after the names inside its other elements. -/
theorem SourceFile.parse_collects (hfile : SourceFile.ofText name base source = .ok file)
    (h : (file.parse source allErrors).isOk = true) :
    let result := file.parse source allErrors
    let unresolved := result.file.unresolved
    (unresolved.Pairwise fun i j =>
        i.pos.index < j.pos.index ∨ ∃ st ∈ result.file.stmts, st.Defers j i) ∧
      (∀ st ∈ result.file.stmts, ∀ i ∈ unresolved, ∀ j ∈ unresolved, st.Defers i j →
        [j, i].Sublist unresolved) ∧
      ((unresolved.Pairwise fun i j => i.pos.index < j.pos.index) ↔
        ∀ st ∈ result.file.stmts, ∀ i ∈ unresolved, ∀ j ∈ unresolved, st.Defers i j →
          j.pos.index < i.pos.index) := by
  intro result unresolved
  have hcollected : unresolved = unresolvedIn (result.file.stmts.flatMap Stmt.lookups) := collected_of_isOk h
  have horder : unresolved.Pairwise fun i j =>
      i.pos.index < j.pos.index ∨ ∃ st ∈ result.file.stmts, st.Defers j i := by
    rw [hcollected]
    exact pairwise_unresolvedIn (pairwise_lookups (pairwise_uses hfile h))
  have hlater : ∀ st ∈ result.file.stmts, ∀ i ∈ unresolved, ∀ j ∈ unresolved, st.Defers i j →
      [j, i].Sublist unresolved := by
    intro st hst i hi j hj hdefers
    have hlookups : [⟨j, false⟩, ⟨i, false⟩].Sublist (result.file.stmts.flatMap Stmt.lookups) := by
      have hone := (List.singleton_sublist.mpr hst).flatMap Stmt.lookups
      rw [List.flatMap_singleton] at hone
      exact hdefers.sublist.trans hone
    rw [hcollected] at hi hj ⊢
    exact sublist_unresolvedIn hlookups (binding_of_mem_unresolvedIn hj) (binding_of_mem_unresolvedIn hi)
  refine ⟨horder, hlater, fun hsorted st hst i hi j hj hdefers => ?_, fun hdeferred => ?_⟩
  · have hpair := hsorted.sublist (hlater st hst i hi j hj hdefers)
    rwa [List.pairwise_pair] at hpair
  · refine horder.imp_of_mem fun {i j} hi hj hor => ?_
    rcases hor with hlt | ⟨st, hst, hdefers⟩
    · exact hlt
    · exact hdeferred st hst j hj i hi hdefers

/-- Two elements of a left-hand side come after the name between them. -/
theorem SourceFile.parse_collects_late :
    ∃ file, SourceFile.ofText "" 1 "a, -(b + c), d += e, f" = .ok file ∧
      let result := file.parse "a, -(b + c), d += e, f" false
      let unresolved := result.file.unresolved
      result.isOk = true ∧
        unresolved.map (fun i => (i.name, i.pos.index)) =
          [("b", 6), ("c", 10), ("a", 1), ("d", 14), ("e", 19), ("f", 22)] ∧
        (unresolved.Pairwise fun i j =>
            i.pos.index < j.pos.index ∨ ∃ st ∈ result.file.stmts, st.Defers j i) ∧
          (∀ st ∈ result.file.stmts, ∀ i ∈ unresolved, ∀ j ∈ unresolved, st.Defers i j →
            [j, i].Sublist unresolved) ∧
          ((unresolved.Pairwise fun i j => i.pos.index < j.pos.index) ↔
            ∀ st ∈ result.file.stmts, ∀ i ∈ unresolved, ∀ j ∈ unresolved, st.Defers i j →
              j.pos.index < i.pos.index) := by
  let source := "a, -(b + c), d += e, f"
  have hfile : SourceFile.ofText "" 1 source = .ok ⟨"", 1, source.utf8ByteSize, LineMap.ofText source⟩ := rfl
  have hok : (SourceFile.parse ⟨"", 1, source.utf8ByteSize, LineMap.ofText source⟩ source false).isOk = true := by
    decide +kernel
  exact ⟨_, hfile, hok, by decide +kernel, SourceFile.parse_collects hfile hok⟩

/-- So the positions of the unresolved names of a file need not increase, though it is parsed without an error. -/
theorem SourceFile.parse_unresolved_unordered :
    ∃ file, SourceFile.ofText "" 1 "a, (b) = 1, 2" = .ok file ∧
      let result := file.parse "a, (b) = 1, 2" false
      result.isOk = true ∧
        result.file.unresolved.map (fun i => (i.name, i.pos.index)) = [("b", 5), ("a", 1)] ∧
        ¬ result.file.unresolved.Pairwise fun i j => i.pos.index < j.pos.index := by
  refine ⟨⟨"", 1, 13, LineMap.ofText "a, (b) = 1, 2"⟩, rfl, ?_⟩
  decide +kernel

end RoseLang
