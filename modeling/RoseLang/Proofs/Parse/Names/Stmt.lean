import RoseLang.Proofs.Parse.Names.Spec
import RoseLang.Proofs.Parse.Sound.File

/-!
# Names of statements

The invariant of a parse is `Follows`: the resolver and the faults that have to do with declarations are what
the tree made so far says they are. Each statement, and within a declaration each spec, keeps it. What is
said of the names that are used holds as long as no fault has been kept, since a statement with a fault may
leave out expressions that have been read. The names are looked up in the order of `Stmt.lookups`, which is
that of the text but for the names that wait on the left of an assignment.
-/

namespace RoseLang

/-- The identifiers of a statement in the order in which they are looked up. -/
def Stmt.lookups : Stmt → List Use
  | .assign _ left _ _ right => Expr.lateUses left ++ right.flatMap (Expr.uses false)
  | st => st.uses

theorem Stmt.lookups_perm (st : Stmt) : st.lookups.Perm st.uses := by
  cases st with
  | assign id left op opPos right =>
    rw [lookups, uses, List.flatMap_append]
    exact (Expr.lateUses_perm left).append_right _
  | _ => exact .refl _

theorem unresolvedIn_perm {us vs : List Use} (h : us.Perm vs) : (unresolvedIn us).Perm (unresolvedIn vs) :=
  (h.map Use.ident).filter _

namespace Parse

/-- What the names and the faults are after these uses and declarations, where the uses were looked up in the
order of `us`. -/
structure Follows (es : List Event) (us : List Use) (s : State) : Prop where
  mirrors : s.names.Mirrors (sitesOf (entriesIn es))
  complaints : s.allErrors = true → semantic s.findings = complaints [] (entriesIn es)
  wellUsed : s.findings = [] → WellUsed [] es
  perm : s.findings = [] → us.Perm (usesIn es)
  collected : s.findings = [] → s.names.unresolved = unresolvedIn us
  numbered : s.findings = [] → Numbered 0 ((usesIn es).map fun u => u.ident.id) s.nextId

namespace Follows

variable {es : List Event} {s s' : State} {us vs vs' ws : List Use}

theorem unresolved (h : Follows es us s) (hnone : s.findings = []) :
    s.names.unresolved.Perm (unresolvedIn (usesIn es)) := by
  rw [h.collected hnone]
  exact unresolvedIn_perm (h.perm hnone)

theorem lookup (h : Follows es us s) : s.names.scopes.lookup = firstObject? (sitesOf (entriesIn es)) :=
  funext h.mirrors.lookup

/-- Identifiers are looked up. Unless a fault has been kept, they are those of the tree. -/
theorem uses (h : Follows es us s) (hrun : LooksUp s ws [] s')
    (hclean : s'.findings = [] →
      vs' = ws ∧ vs'.Perm vs ∧ Numbered s.nextId (vs.map fun u => u.ident.id) s'.nextId) :
    Follows (es ++ vs.map .use) (us ++ vs') s' where
  mirrors := by
    rw [entriesIn_append, entriesIn_map_use, List.append_nil]
    exact h.mirrors.congr hrun.scopes hrun.objects
  complaints hall := by
    have hbefore : s.allErrors = true := hrun.allErrors ▸ hall
    rw [entriesIn_append, entriesIn_map_use, List.append_nil, hrun.semantic hbefore, List.append_nil,
      h.complaints hbefore]
  wellUsed hnone := by
    obtain ⟨rfl, hperm, -⟩ := hclean hnone
    refine wellUsed_append.mpr ⟨h.wellUsed (hrun.clean hnone), wellUsed_map_use.mpr fun u hu => ?_⟩
    rw [hrun.bound u (hperm.mem_iff.mpr hu), h.lookup, List.nil_append]
  perm hnone := by
    obtain ⟨-, hperm, -⟩ := hclean hnone
    rw [usesIn_append, usesIn_map_use]
    exact (h.perm (hrun.clean hnone)).append hperm
  collected hnone := by
    obtain ⟨rfl, -⟩ := hclean hnone
    rw [hrun.unresolved, h.collected (hrun.clean hnone), unresolvedIn_append]
  numbered hnone := by
    rw [usesIn_append, usesIn_map_use, List.map_append]
    exact (h.numbered (hrun.clean hnone)).append (hclean hnone).2.2

theorem idle (h : Follows es us s) (hrun : LooksUp s [] [] s') : Follows es us s' := by
  have huses : Follows (es ++ ([] : List Use).map .use) (us ++ []) s' :=
    h.uses hrun fun _ => ⟨rfl, .nil, .nil hrun.nextId_le⟩
  rwa [List.map_nil, List.append_nil, List.append_nil] at huses

/-- A statement in which there is nothing to look up. -/
theorem nothing (h : Follows es us s) {st : Stmt} (hst : st.events = []) (hlookups : st.lookups = []) :
    Follows (es ++ st.events) (us ++ st.lookups) s := by
  rwa [hst, hlookups, List.append_nil, List.append_nil]

/-! ### Declarations -/

theorem spec {keyword : DeclKeyword} {index : Nat} {sp : Spec} (h : Follows es us s)
    (hrun : Parse.spec keyword index s = .ok sp s') :
    Follows (es ++ Entry.events ⟨keyword, index, sp⟩) (us ++ sp.uses) s' := by
  obtain ⟨t, hlooksUp, hnumbered, henters⟩ := (SpecRuns.of_ok hrun).looksUp h.mirrors
  refine ⟨?_, fun hall => ?_, fun hnone => ?_, fun hnone => ?_, fun hnone => ?_, fun hnone => ?_⟩
  · rw [entriesIn_append, entriesIn_events_entry, sitesOf_append, sitesOf, sitesOf, List.flatMap_singleton]
    exact henters.mirrors
  · have ht : t.allErrors = true := henters.allErrors ▸ hall
    have hs : s.allErrors = true := hlooksUp.allErrors ▸ ht
    rw [entriesIn_append, entriesIn_events_entry, complaints_append, complaints_single, henters.semantic ht,
      hlooksUp.semantic hs, h.complaints hs, Entry.complaints, List.nil_append, List.append_assoc]
  · have hclean := henters.clean hnone
    rw [Entry.events, ← List.append_assoc, wellUsed_append, wellUsed_append, wellUsed_map_use]
    refine ⟨⟨h.wellUsed (hlooksUp.clean hclean), fun u hu => ?_⟩, trivial⟩
    rw [hlooksUp.bound u hu, h.lookup, List.nil_append]
  · rw [usesIn_append, usesIn_events_entry]
    exact (h.perm (hlooksUp.clean (henters.clean hnone))).append_right _
  · rw [henters.unresolved, hlooksUp.unresolved, h.collected (hlooksUp.clean (henters.clean hnone)),
      unresolvedIn_append]
  · have hclean := henters.clean hnone
    rw [usesIn_append, usesIn_events_entry, List.map_append]
    exact ((h.numbered (hlooksUp.clean hclean)).append hnumbered).mono (Nat.le_refl _) henters.nextId_le

theorem specs {keyword : DeclKeyword} {index n : Nat} {entries : List Spec} (h : Follows es us s)
    (hrun : SpecsRuns keyword index n s entries s') :
    Follows (es ++ (entriesFrom keyword index entries).flatMap Entry.events)
      (us ++ (entriesFrom keyword index entries).flatMap fun x => x.spec.uses) s' := by
  induction hrun generalizing es us with
  | full | stop => simpa [entriesFrom] using h
  | more hgo hfirst hrest ih =>
    rw [entriesFrom_cons, List.flatMap_cons, List.flatMap_cons, ← List.append_assoc, ← List.append_assoc]
    exact ih (h.spec hfirst)

theorem decl {keyword : DeclKeyword} {d : Decl} (h : Follows es us s)
    (hrun : Parse.decl keyword s = .ok d s') :
    Follows (es ++ d.entries.flatMap Entry.events) (us ++ d.entries.flatMap fun x => x.spec.uses) s' := by
  cases DeclRuns.of_ok hrun with
  | group hkeyword hkind hlparen hentries hrparen hclose =>
    have hopen := (h.idle (Idle.expect _ _ _ _ hkeyword)).idle (Idle.expect _ _ _ _ hlparen)
    have hentered := hopen.specs (SpecsRuns.of_ok hentries)
    exact hentered.idle ((Idle.expect _ _ _ _ hrparen).before ((Idle.expectSemi _ _ _ hclose).before (.freshId _)))
  | single hkeyword hkind hentry =>
    have hspec := ((h.idle (Idle.expect _ _ _ _ hkeyword)).spec hentry).idle (.freshId _)
    simpa [Decl.entries, entriesFrom] using hspec

end Follows

/-! ### Simple statements -/

/-- Only the first of several expressions is kept, and this is reported. -/
theorem several_idle {first : Expr} {others : List Expr} {s s' : State}
    (h : reportAny (if others.isEmpty then none else some (first.pos, .severalExpressions)) s = .ok () s') :
    LooksUp s [] [] s' ∧ (s'.findings = [] → others = [] ∧ s' = s) := by
  constructor
  · have hreport := LooksUp.reportAny h
    cases others <;> exact hreport
  · intro hnone
    obtain ⟨hothers, rfl⟩ := reportAny_clean hnone h
    cases others with
    | nil => exact ⟨rfl, rfl⟩
    | cons e others => cases hothers

/-- A statement that keeps the first expression only. Nothing waits any more, except before a colon. -/
theorem first_looksUp {first : Expr} {others : List Expr} {s t u : State}
    (hlist : lhsList s = .ok (first, others) t)
    (hreport : reportAny (if others.isEmpty then none else some (first.pos, .severalExpressions)) t = .ok () u) :
    ∃ us, LooksUp s us [] u ∧ (u.findings = [] → u.token.kind ≠ .colon →
      first.uses false = us ∧ Numbered s.nextId ((first.uses false).map fun u => u.ident.id) u.nextId) := by
  obtain ⟨hidle, hclean⟩ := several_idle hreport
  rcases lhsList_made hlist with hmade | ⟨hcolon, hmade⟩
  · refine ⟨_, hmade.looksUp.before hidle, fun hnone _ => ?_⟩
    obtain ⟨rfl, rfl⟩ := hclean hnone
    have hnumbered := hmade.numbered
    rw [← map_id_flatMap_uses false, List.flatMap_singleton] at hnumbered
    exact ⟨(Expr.lateUses_singleton first).symm, hnumbered⟩
  · refine ⟨_, hmade.looksUp.before hidle, fun hnone hne => ?_⟩
    obtain ⟨-, rfl⟩ := hclean hnone
    exact absurd hcolon hne

theorem simple_looksUp {made : NodeId → Stmt} {s s' : State} (h : simple s = .ok made s') :
    ∃ us, LooksUp s us [] s' ∧ ∀ id, (made id).events = (made id).uses.map .use ∧
      (s'.findings = [] → s'.token.kind ≠ .colon →
        (made id).lookups = us ∧
          Numbered s.nextId ((made id).uses.map fun u => u.ident.id) s'.nextId) := by
  cases SimpleRuns.of_ok h with
  | @assign t s' first others right op hlist hassign hright =>
    rcases lhsList_made hlist with hmade | ⟨hcolon, -⟩
    · have hrhs := (rhsList_made hright).after (.next t)
      refine ⟨_, hmade.looksUp.trans hrhs.looksUp, fun id => ⟨rfl, fun _ _ => ⟨rfl, ?_⟩⟩⟩
      rw [Stmt.uses, map_id_flatMap_uses, List.flatMap_append, List.map_append]
      exact hmade.numbered.append hrhs.numbered
    · rw [hcolon] at hassign
      cases hassign
  | @incDec t u first others increment hlist hkind hone =>
    obtain ⟨us, hlooksUp, hclean⟩ := first_looksUp hlist hone
    refine ⟨us, hlooksUp.before (.next u), fun id => ⟨rfl, fun hnone _ => ?_⟩⟩
    have hu := (LooksUp.next u).clean hnone
    have hsame := ((several_idle hone).2 hu).2
    have hcolon : u.token.kind ≠ .colon := by
      rw [hsame, hkind]
      cases increment <;> decide
    obtain ⟨huses, hnumbered⟩ := hclean hu hcolon
    exact ⟨huses, hnumbered.mono (Nat.le_refl _) (LooksUp.next u).nextId_le⟩
  | other hlist hassign hincDec hone =>
    obtain ⟨us, hlooksUp, hclean⟩ := first_looksUp hlist hone
    exact ⟨us, hlooksUp, fun _ => ⟨rfl, hclean⟩⟩

/-! ### Statements -/

namespace Follows

variable {es : List Event} {us : List Use} {s s' : State} {st : Stmt}

theorem stmt (h : Follows es us s) (hrun : Parse.stmt s = .ok st s') :
    Follows (es ++ st.events) (us ++ st.lookups) s' := by
  cases StmtRuns.of_ok hrun with
  | keyword hkeyword hdecl => exact (h.decl hdecl).idle (.freshId _)
  | semi hsemi => exact (h.idle ((LooksUp.next s).before (.freshId _))).nothing rfl rfl
  | @operand t u made hoperand hsimple hclose =>
    obtain ⟨ws, hlooksUp, hst⟩ := simple_looksUp hsimple
    obtain ⟨hevents, hclean⟩ := hst u.nextId
    have hafter := (Idle.expectSemi _ _ _ hclose).before (.freshId u)
    rw [hevents]
    refine h.uses (hlooksUp.before hafter) fun hnone => ?_
    have hu : u.findings = [] := hnone
    have hcolon : t.token.kind ≠ .colon := by
      rcases expectSemi_clean hu hclose with ⟨hkind, -⟩ | ⟨hkind | hkind, -⟩
      all_goals
        rw [hkind]
        decide
    obtain ⟨huses, hnumbered⟩ := hclean (hafter.clean hnone) hcolon
    exact ⟨huses, (made u.nextId).lookups_perm, hnumbered.mono (Nat.le_refl _) hafter.nextId_le⟩
  | other hkeyword hoperand hsemi hskipped =>
    have hidle := (Idle.skipped _ (.expected _) _ _ _ hskipped).before (.freshId _)
    exact (h.idle hidle).nothing rfl rfl

/-- The run lemma: what each statement keeps, the statements up to the end keep. -/
theorem rounds {n : Nat} (h : Follows (s.stmts.flatMap Stmt.events) (s.stmts.flatMap Stmt.lookups) s)
    (hrounds : Rounds n s s') : Follows (s'.stmts.flatMap Stmt.events) (s'.stmts.flatMap Stmt.lookups) s' := by
  refine hrounds.keeps (P := fun s => Follows (s.stmts.flatMap Stmt.events) (s.stmts.flatMap Stmt.lookups) s)
    (fun s st t hs _ hst => ?_) h
  rw [flatMap_made hst, flatMap_made hst]
  exact (hs.stmt hst).idle (.of_same rfl rfl rfl (Nat.le_refl _))

end Follows

/-! ### Files -/

variable {file : SourceFile} {source : String} {allErrors : Bool}

/-- How a parse ends that is not stopped. -/
theorem follows_lastState (hfirst : (firstState file source allErrors).findings = [])
    (h : allErrors = true ∨ (lastState file source allErrors).findings = []) :
    Follows ((lastState file source allErrors).stmts.flatMap Stmt.events)
      ((lastState file source allErrors).stmts.flatMap Stmt.lookups) (lastState file source allErrors) := by
  obtain ⟨n, hrounds⟩ := Rounds.of_stmts (stmts_lastState hfirst h)
  refine Follows.rounds ?_ hrounds
  rw [stmts_firstState]
  refine ⟨?_, fun _ => ?_, fun _ => trivial, fun _ => .nil, fun _ => ?_, fun _ => .nil (Nat.zero_le _)⟩
  · rw [names_firstState]
    exact Resolver.mirrors_openScope
  · rw [hfirst]
    rfl
  · rw [names_firstState]
    rfl

end Parse

end RoseLang
