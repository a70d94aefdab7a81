import RoseLang.Proofs.Parse.Names.Stmt

/-!
# Objects and complaints of a file

What a parse that wants every fault tells of the declarations of a text, however malformed: its objects are
those of the names that its tree declares, and of the faults of its declarations it reports all, and no
others. Both are read off the invariant `Follows` in the state in which the parse ends.
-/

namespace RoseLang

namespace Parse

/-- A file whose first token is faulty has nothing in it. -/
theorem lastState_faulty {file : SourceFile} {source : String} {allErrors : Bool}
    (h : (firstState file source allErrors).findings ≠ []) :
    let s := lastState file source allErrors
    s.stmts = [] ∧ s.names = .empty ∧ (allErrors = true → semantic s.findings = []) := by
  rw [lastState_of_faulty h]
  exact ⟨(Extends.next _).stmts, names_next_start file allErrors _,
    (LooksUp.next (State.start file allErrors _)).semantic⟩

theorem find?_objects {sites : List Site} {name : String} (hblank : name ≠ Ident.blank) :
    ((sites.mapIdx Site.object).find? fun o => o.name = name).map Object.id = firstObject? sites name := by
  cases hfirst : firstObject? sites name with
  | none =>
    have hnew := (firstObject?_eq_none_iff.mp hfirst).resolve_left hblank
    rw [Option.map_eq_none_iff, List.find?_eq_none]
    intro o ho
    obtain ⟨k, hk, rfl⟩ := List.mem_mapIdx.mp ho
    exact Bool.eq_false_iff.mp (decide_eq_false (hnew sites[k] (List.getElem_mem hk)))
  | some object =>
    rw [firstObject?, if_neg hblank] at hfirst
    obtain ⟨hlt, hname, hbefore⟩ := List.findIdx?_eq_some_iff_getElem.mp hfirst
    have hfound : ((sites.mapIdx Site.object).find? fun o => o.name = name) =
        some (sites[object].object object) := by
      refine List.find?_eq_some_iff_getElem.mpr ⟨hname, object, by simpa using hlt, by simp, fun j hj => ?_⟩
      have hne : sites[j].name.name ≠ name := by simpa using hbefore j hj
      simpa [Site.object] using hne
    rw [hfound]
    rfl

end Parse

open Parse

/-- The objects are those of the declared names, in order, and the scope of the file has the first one of each
name. -/
theorem SourceFile.parse_objects (file : SourceFile) (source : String) :
    let result := file.parse source true
    let sites := sitesOf (result.file.stmts.flatMap Stmt.entries)
    let first := (Lexer.ofText source ⟨file.base⟩).lexemes.head?
    result.objects = sites.mapIdx Site.object ∧
      (∀ (k : Nat) (site : Site), sites[k]? = some site → site.name.binding = .resolved k) ∧
      ((∃ l ∈ first, l.errors ≠ []) → result.scopes = ⟨[], []⟩) ∧
      ((∀ l ∈ first, l.errors = []) →
        ∃ bindings, result.scopes = ⟨[⟨0, none, .file, bindings⟩], []⟩ ∧ (bindings.map Prod.fst).Nodup ∧
          ∀ name, bindings.lookup name =
            if name = Ident.blank then none
            else (result.objects.find? fun o => o.name = name).map Object.id) := by
  let s := lastState file source true
  show s.names.objects = (sitesOf (s.stmts.flatMap Stmt.entries)).mapIdx Site.object ∧
    (∀ k site, (sitesOf (s.stmts.flatMap Stmt.entries))[k]? = some site → _) ∧
    (_ → s.names.closeScope.scopes = ⟨[], []⟩) ∧ (_ → ∃ bindings, s.names.closeScope.scopes = _ ∧ _)
  by_cases hfirst : (firstState file source true).findings = []
  · have hclean := findings_firstState.mp hfirst
    have hmirrors := (follows_lastState hfirst (.inl rfl)).mirrors
    rw [entriesIn_flatMap entriesIn_events] at hmirrors
    refine ⟨hmirrors.objects, hmirrors.bound, fun ⟨l, hl, herrors⟩ => absurd (hclean l hl) herrors, fun _ => ?_⟩
    obtain ⟨bindings, hscopes, hnodup, hlookup⟩ := hmirrors.scopes
    refine ⟨bindings, ?_, hnodup, fun name => ?_⟩
    · rw [Resolver.closeScope, hscopes]
      rfl
    · rw [hlookup]
      split
      · next hblank => rw [firstObject?, if_pos hblank]
      · next hblank =>
        show _ = (s.names.objects.find? _).map Object.id
        rw [hmirrors.objects, find?_objects hblank]
  · obtain ⟨hstmts, hnames, -⟩ := lastState_faulty hfirst
    rw [hstmts, hnames]
    refine ⟨rfl, by simp [sitesOf], fun _ => rfl, fun hclean => ?_⟩
    exact absurd (findings_firstState.mpr hclean) hfirst

/-- The faults of the declarations that are reported are those that the tree has. -/
theorem SourceFile.parse_complaints (file : SourceFile) (source : String) :
    let result := file.parse source true
    (result.errors.filter fun e => e.kind = .semantic).Perm
      ((complaints [] (result.file.stmts.flatMap Stmt.entries)).map fun f =>
        ParseError.ofFault file f.pos f.fault) := by
  let s := lastState file source true
  obtain ⟨hfile, hall⟩ : s.file = file ∧ s.allErrors = true := settings_lastState file source true
  have hsemantic : semantic s.findings = complaints [] (s.stmts.flatMap Stmt.entries) := by
    by_cases hfirst : (firstState file source true).findings = []
    · rw [← entriesIn_flatMap entriesIn_events]
      exact (follows_lastState hfirst (.inl rfl)).complaints hall
    · obtain ⟨hstmts, -, hfindings⟩ := lastState_faulty hfirst
      rw [hstmts, hfindings rfl]
      rfl
  have hkinds : (s.findings.map fun f => ParseError.ofFault file f.pos f.fault).filter
      (fun e => e.kind = .semantic) =
        (semantic s.findings).map fun f => ParseError.ofFault file f.pos f.fault := List.filter_map
  show (s.result.errors.filter _).Perm ((complaints [] (s.stmts.flatMap Stmt.entries)).map _)
  rw [← hsemantic, ← hkinds, State.result, hfile]
  exact (List.mergeSort_perm _ _).filter _

end RoseLang
