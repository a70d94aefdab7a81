import RoseLang.Proofs.Parse.Names.Stmt
import RoseLang.Proofs.Scope.Order

/-!
# Names resolve to their declarations

In a file that is parsed without an error every name is bound to the one declaration of it that ends before
the name, and is unresolved if there is none. What a parse binds an identifier to depends on the events before
it; these are the specs that end before it, since the events are in the order of the text.
-/

namespace RoseLang

/-- The spec ends before the identifier and declares its name. -/
def Use.Sees (u : Use) (x : Entry) : Prop :=
  x.spec.stop.index ≤ u.ident.pos.index ∧ u.ident.name ∈ x.spec.names.map Ident.name

/-- The identifier is bound as the specs of its file ask for, with these objects. -/
structure Use.BoundAmong (u : Use) (xs : List Entry) (objects : List Object) : Prop where
  unbound : ¬ u.IsLookedUp → u.ident.binding = .unbound
  resolved : u.IsLookedUp → ∀ x ∈ xs, x.spec.stop.index ≤ u.ident.pos.index →
    ∀ n ∈ x.spec.names, n.name = u.ident.name → ∃ id object,
      u.ident.binding = .resolved id ∧ n.binding = .resolved id ∧ objects[id]? = some object ∧
        object.decl = x.spec.id ∧ object.name = n.name ∧ object.pos = n.pos
  unresolved : u.IsLookedUp → (∀ x ∈ xs, ¬ u.Sees x) → u.ident.binding = .unresolved

theorem Use.BoundAmong.unresolved_iff {u : Use} {xs : List Entry} {objects : List Object}
    (h : u.BoundAmong xs objects) :
    u.ident.binding = .unresolved ↔ u.IsLookedUp ∧ ∀ x ∈ xs, ¬ u.Sees x := by
  constructor
  · intro hbinding
    have hlookedUp : u.IsLookedUp := by
      by_contra hnot
      rw [h.unbound hnot] at hbinding
      cases hbinding
    refine ⟨hlookedUp, fun x hx ⟨hstop, hname⟩ => ?_⟩
    obtain ⟨n, hn, hname⟩ := List.mem_map.mp hname
    obtain ⟨id, object, hresolved, -⟩ := h.resolved hlookedUp x hx hstop n hn hname
    rw [hresolved] at hbinding
    cases hbinding
  · rintro ⟨hlookedUp, hunseen⟩
    exact h.unresolved hlookedUp hunseen

/-! ### Uses among events in order -/

/-- A use is bound by the specs that end before it, which are the first ones. -/
theorem WellUsed.binding_eq {es : List Event} {lo hi : Nat} {u : Use} (hused : WellUsed [] es)
    (hsits : Sits lo es hi) (hu : u ∈ usesIn es) :
    ∃ seen later, entriesIn es = seen ++ later ∧
      (∀ x ∈ seen, x.spec.stop.index ≤ u.ident.pos.index) ∧
      (∀ x ∈ later, u.ident.pos.index < x.spec.stop.index) ∧
      u.ident.binding = u.bindingBy (firstObject? (sitesOf seen)) := by
  obtain ⟨before, after, rfl⟩ := List.append_of_mem (mem_usesIn.mp hu)
  refine ⟨entriesIn before, entriesIn after, ?_, fun x => hsits.use.1, fun x => hsits.use.2, hused.binding⟩
  rw [entriesIn_append]
  rfl

/-- The object of a name that one of the first specs declares, where every name is declared once. -/
theorem Resolver.Mirrors.object_of_mem {seen later : List Entry} {names : Resolver}
    (h : names.Mirrors (sitesOf (seen ++ later))) (hnodup : (declaredIn (seen ++ later)).Nodup) {x : Entry}
    (hx : x ∈ seen) {n : Ident} (hn : n ∈ x.spec.names) (hblank : n.name ≠ Ident.blank) :
    ∃ id object, firstObject? (sitesOf seen) n.name = some id ∧ n.binding = .resolved id ∧
      names.objects[id]? = some object ∧ object.decl = x.spec.id ∧ object.name = n.name ∧ object.pos = n.pos := by
  rw [declaredIn, List.flatMap_append] at hnodup
  let site : Site := ⟨x.keyword, x.index, x.spec.id, n⟩
  have hsite : site ∈ sitesOf seen := mem_sitesOf.mpr ⟨x, hx, n, hn, rfl⟩
  obtain ⟨id, hfirst, hget⟩ := firstObject?_of_mem (List.nodup_append.mp hnodup).1 hsite hblank
  have hgetAll : (sitesOf (seen ++ later))[id]? = some site := by
    obtain ⟨hlt, -⟩ := List.getElem?_eq_some_iff.mp hget
    rw [sitesOf_append, List.getElem?_append_left hlt, hget]
  refine ⟨id, site.object id, hfirst, h.bound id site hgetAll, ?_, rfl, rfl, rfl⟩
  rw [h.objects, List.getElem?_mapIdx, hgetAll, Option.map_some]

theorem WellUsed.boundAmong {es : List Event} {lo hi : Nat} {names : Resolver} (hused : WellUsed [] es)
    (hsits : Sits lo es hi) (hmirrors : names.Mirrors (sitesOf (entriesIn es)))
    (hnodup : (declaredIn (entriesIn es)).Nodup) {u : Use} (hu : u ∈ usesIn es) :
    u.BoundAmong (entriesIn es) names.objects := by
  obtain ⟨seen, later, hentries, hbefore, hafter, hbinding⟩ := hused.binding_eq hsits hu
  rw [hentries] at hmirrors hnodup ⊢
  refine ⟨fun hnot => ?_, fun hlookedUp x hx hstop n hn hname => ?_, fun hlookedUp hunseen => ?_⟩
  · rw [hbinding, Use.bindingBy, if_neg hnot]
  · have hseen : x ∈ seen := by
      refine (List.mem_append.mp hx).resolve_right fun hlater => ?_
      exact absurd hstop (Nat.not_le.mpr (hafter x hlater))
    have hblank : n.name ≠ Ident.blank := fun heq => hlookedUp.1 (hname.symm.trans heq)
    obtain ⟨id, object, hfirst, hobject⟩ := hmirrors.object_of_mem hnodup hseen hn hblank
    refine ⟨id, object, ?_, hobject⟩
    rw [hbinding, Use.bindingBy, if_pos hlookedUp, ← hname, hfirst]
  · have hfirst : firstObject? (sitesOf seen) u.ident.name = none := by
      refine firstObject?_eq_none_iff.mpr (.inr fun site hsite hname => ?_)
      obtain ⟨x, hx, n, hn, rfl⟩ := mem_sitesOf.mp hsite
      exact hunseen x (List.mem_append_left _ hx) ⟨hbefore x hx, List.mem_map.mpr ⟨n, hn, hname⟩⟩
    rw [hbinding, Use.bindingBy, if_pos hlookedUp, hfirst]

open Parse

/-- Every name is bound to its declaration if that ends before it, and the names without one are listed as
unresolved, each of them once. -/
theorem SourceFile.parse_resolves {name source : String} {base : Nat} {file : SourceFile} {allErrors : Bool}
    (hfile : SourceFile.ofText name base source = .ok file)
    (h : (file.parse source allErrors).isOk = true) :
    let result := file.parse source allErrors
    let uses := result.file.stmts.flatMap Stmt.uses
    let entries := result.file.stmts.flatMap Stmt.entries
    (∀ u ∈ uses, u.BoundAmong entries result.objects) ∧
      (result.file.unresolved.map Ident.id).Nodup ∧
      ∀ i, i ∈ result.file.unresolved ↔
        ∃ u ∈ uses, u.ident = i ∧ u.IsLookedUp ∧ ∀ x ∈ entries, ¬ u.Sees x := by
  let s := lastState file source allErrors
  have hclean : s.findings = [] := (isOk_parse file source allErrors).mp h
  obtain ⟨-, hisFile, -, hadmissible⟩ := SourceFile.parse_sound h
  have hfits : (⟨file.base⟩ : Pos).index + Text.utf8Length source.toList ≤ Pos.last.index := fits_of_ofText hfile
  obtain ⟨hi, hruns⟩ := Lexer.runs_tokenize hfits
  have hsits : Sits file.base (s.stmts.flatMap Stmt.events) hi := hisFile.sits hruns
  have hnodup : (declaredIn (s.stmts.flatMap Stmt.entries)).Nodup := (allAdmissible_nil_iff.mp hadmissible).2.1
  have hends : Follows _ _ s := follows_lastState (findings_firstState_of_clean hclean) (.inr hclean)
  have huses : usesIn (s.stmts.flatMap Stmt.events) = s.stmts.flatMap Stmt.uses := usesIn_flatMap usesIn_events _
  have hentries : entriesIn (s.stmts.flatMap Stmt.events) = s.stmts.flatMap Stmt.entries :=
    entriesIn_flatMap entriesIn_events _
  have hbound : ∀ u ∈ s.stmts.flatMap Stmt.uses, u.BoundAmong (s.stmts.flatMap Stmt.entries) s.names.objects := by
    intro u hu
    rw [← hentries] at hnodup ⊢
    exact (hends.wellUsed hclean).boundAmong hsits hends.mirrors hnodup (huses ▸ hu)
  have hperm := hends.unresolved hclean
  have hnumbered := (hends.numbered hclean).nodup
  rw [huses] at hperm hnumbered
  show (∀ u ∈ s.stmts.flatMap Stmt.uses, _) ∧ (s.names.unresolved.map Ident.id).Nodup ∧
    ∀ i, i ∈ s.names.unresolved ↔ ∃ u ∈ s.stmts.flatMap Stmt.uses, _
  refine ⟨hbound, ?_, fun i => ?_⟩
  · rw [(hperm.map Ident.id).nodup_iff]
    have hsublist := (List.filter_sublist (l := (s.stmts.flatMap Stmt.uses).map Use.ident)
      (p := fun i => i.binding = .unresolved)).map Ident.id
    rw [List.map_map] at hsublist
    exact hnumbered.sublist hsublist
  · rw [hperm.mem_iff, mem_unresolvedIn]
    refine exists_congr fun u => and_congr_right fun hu => and_congr_right ?_
    rintro rfl
    exact (hbound u hu).unresolved_iff

/-- A name in its own declaration, and the name of a type as an operand. -/
theorem SourceFile.parse_resolves_ownName :
    ∃ file, SourceFile.ofText "" 1 "let a, _ = a, _\nvar b int = (a)\na, b = int, a" = .ok file ∧
      let result := file.parse "let a, _ = a, _\nvar b int = (a)\na, b = int, a" false
      let uses := result.file.stmts.flatMap Stmt.uses
      let entries := result.file.stmts.flatMap Stmt.entries
      result.isOk = true ∧
        uses.map (fun u => (u.ident.name, u.ident.binding)) =
          [("a", .unresolved), ("_", .unbound), ("int", .unbound), ("a", .resolved 0), ("a", .resolved 0),
            ("b", .resolved 2), ("int", .unresolved), ("a", .resolved 0)] ∧
        result.file.unresolved.map Ident.name = ["a", "int"] ∧
        (∀ u ∈ uses, u.BoundAmong entries result.objects) ∧
        (result.file.unresolved.map Ident.id).Nodup ∧
        ∀ i, i ∈ result.file.unresolved ↔
          ∃ u ∈ uses, u.ident = i ∧ u.IsLookedUp ∧ ∀ x ∈ entries, ¬ u.Sees x := by
  let source := "let a, _ = a, _\nvar b int = (a)\na, b = int, a"
  have hfile : SourceFile.ofText "" 1 source = .ok ⟨"", 1, source.utf8ByteSize, LineMap.ofText source⟩ := rfl
  have hok : (SourceFile.parse ⟨"", 1, source.utf8ByteSize, LineMap.ofText source⟩ source false).isOk = true := by
    decide +kernel
  exact ⟨_, hfile, hok, by decide +kernel, by decide +kernel, SourceFile.parse_resolves hfile hok⟩

end RoseLang
