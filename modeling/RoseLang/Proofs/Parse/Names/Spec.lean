import RoseLang.Proofs.Parse.Names.Expr

/-!
# Names of a spec

The names of a spec are declared when its type and its values have been read, so up to then `LooksUp` covers
it. From there on each name makes one more object, and is reported if it was declared before.
-/

namespace RoseLang

/-- A type in which no name has been looked up. -/
def Expr.IsBareType : Expr → Prop
  | bad .. => True
  | ident _ i => i.binding = .unbound
  | paren _ _ inner _ => inner.IsBareType
  | _ => False

namespace Parse

/-! ### Types -/

/-- A type is read from `s` to `s'`, and nothing looked up yet. -/
structure ReadsBare (s : State) (type : Expr) (s' : State) : Prop where
  idle : LooksUp s [] [] s'
  bare : type.IsBareType
  numbered : Numbered s.nextId (type.idents.map Ident.id) s'.nextId

theorem skippedExpr_bare {kinds : List Kind} {complaint : Parser Unit} {s s' : State} {e : Expr}
    (hcomplaint : Idle complaint) (h : skippedExpr kinds complaint s = .ok e s') : ReadsBare s e s' := by
  have hidle := Idle.skippedExpr kinds hcomplaint s e s' h
  obtain ⟨t, -, rfl, rfl⟩ := skippedExpr_eq_ok h
  exact ⟨hidle, trivial, .nil hidle.nextId_le⟩

theorem tooDeep_bare {s s' : State} {e : Expr} (h : tooDeep s = .ok e s') : ReadsBare s e s' :=
  skippedExpr_bare (.bind .currentPos fun _ => .report _ (by simp [Fault.kind])) h

private theorem paren_bare {s t u : State} {inner : Expr} {rparen : Pos} (h : ReadsBare s.inside inner t)
    (hrparen : expect .rparen { t with depth := t.depth - 1 } = .ok rparen u) :
    ReadsBare s (.paren u.nextId s.token.pos inner rparen) { u with nextId := u.nextId + 1 } := by
  have hleave : LooksUp t [] [] { t with depth := t.depth - 1 } := .of_same rfl rfl rfl (Nat.le_refl _)
  have hclose := (hleave.before (Idle.expect _ _ _ _ hrparen)).before (.freshId u)
  exact ⟨((LooksUp.inside s).before h.idle).before hclose, h.bare,
    h.numbered.mono (LooksUp.inside s).nextId_le hclose.nextId_le⟩

theorem TypeRuns.bare {room : Nat} {s s' : State} {type : Expr} (h : TypeRuns room s type s') :
    ReadsBare s type s' := by
  induction h with
  | @name room s t i hkind hname =>
    obtain ⟨hunbound, -, hnumbered⟩ := ident_made hname
    have hidle := (Idle.ident _ _ _ hname).before (.freshId t)
    exact ⟨hidle, hunbound, hnumbered.mono (Nat.le_refl _) (Nat.le_succ _)⟩
  | tooDeep hlparen hskipped => exact tooDeep_bare hskipped
  | paren hlparen hinner hrparen ih => exact paren_bare ih hrparen
  | missing hlparen hstart hskipped hrparen => exact paren_bare (skippedExpr_bare (.expected _) hskipped) hrparen

theorem object_resolve (r : Resolver) (i : Ident) :
    (r.resolve i true).2.1 = if i.name = Ident.blank then none else r.scopes.lookup i.name := by
  rw [Resolver.resolve]
  by_cases hblank : i.name = Ident.blank
  · simp [Ident.isBlank, hblank]
  · cases r.scopes.lookup i.name <;> simp [Ident.isBlank, hblank]

/-- What is reported of the name inside a type. -/
private theorem notType_complaint {r : Resolver} {sites : List Site} (hm : r.Mirrors sites) (id : NodeId)
    {i : Ident} (hplain : i.name ∉ builtinTypes) :
    semantic (((r.resolve i true).2.1.map fun _ => (i.pos, Fault.notType i.name)).map
        fun f => ⟨f.1, f.2⟩).toList =
      ((Expr.ident id i).typeComplaint? (sites.map Site.name)).toList := by
  rw [object_resolve, hm.lookup, Expr.typeComplaint?_ident]
  have hknown : (∃ first ∈ sites.map Site.name, first.name = i.name) ↔
      ¬ ∀ site ∈ sites, site.name.name ≠ i.name := by simp
  by_cases hblank : i.name = Ident.blank
  · rw [if_pos hblank, if_neg fun h => h.1 hblank]
    rfl
  · rw [if_neg hblank]
    cases hfirst : firstObject? sites i.name with
    | none =>
      have hnew := (firstObject?_eq_none_iff.mp hfirst).resolve_left hblank
      rw [if_neg fun h => hknown.mp h.2.2 hnew]
      rfl
    | some object =>
      obtain ⟨-, site, hsite, hname⟩ := firstObject?_eq_some hfirst
      rw [if_pos ⟨hblank, hplain, hknown.mpr fun hnew => hnew site (List.mem_of_getElem? hsite) hname⟩]
      rfl

theorem resolveType_looksUp {type type' : Expr} {s s' : State} {sites : List Site}
    (hbare : type.IsBareType) (hm : s.names.Mirrors sites) (h : resolveType type s = .ok type' s') :
    LooksUp s (type'.uses true) (type'.typeComplaint? (sites.map Site.name)).toList s' ∧
      type'.idents.map Ident.id = type.idents.map Ident.id := by
  induction type generalizing type' s' with
  | bad id start stop =>
    obtain ⟨rfl, rfl⟩ := pure_eq_ok.mp h
    exact ⟨.refl s, rfl⟩
  | paren id lparen inner rparen ih =>
    obtain ⟨inner', t, hinner, h⟩ := bind_eq_ok.mp h
    obtain ⟨rfl, rfl⟩ := pure_eq_ok.mp h
    obtain ⟨hlooksUp, hids⟩ := ih hbare hinner
    exact ⟨hlooksUp, hids⟩
  | ident id i =>
    have hunbound : i.binding = .unbound := hbare
    rw [resolveType] at h
    split at h
    · next hbuiltin =>
      obtain ⟨rfl, rfl⟩ := pure_eq_ok.mp h
      have hmem : i.name ∈ builtinTypes := List.contains_iff_mem.mp hbuiltin
      have hnone : (Expr.ident id i).typeComplaint? (sites.map Site.name) = none := by
        rw [Expr.typeComplaint?_ident, if_neg fun h => h.2.1 hmem]
      rw [hnone]
      exact ⟨.builtin s hunbound hmem, rfl⟩
    · next hbuiltin =>
      have hplain : i.name ∉ builtinTypes := fun hmem => hbuiltin (List.contains_iff_mem.mpr hmem)
      rw [resolve_bind] at h
      obtain ⟨_, t, hreport, h⟩ := bind_eq_ok.mp h
      obtain ⟨rfl, rfl⟩ := pure_eq_ok.mp h
      obtain ⟨binding, hi⟩ := s.names.ident_resolve i true
      have hlooksUp := (LooksUp.resolve s true hunbound fun h => hplain h.2).trans (.reportAny hreport)
      have hcomplaint := notType_complaint hm id hplain
      rw [hi] at hlooksUp ⊢
      refine ⟨?_, rfl⟩
      show LooksUp s _ ((Expr.ident id i).typeComplaint? (sites.map Site.name)).toList t
      rw [← hcomplaint]
      exact hlooksUp
  | _ => cases hbare

theorem type?_looksUp {type : Option Expr} {s s' : State} {sites : List Site} (hm : s.names.Mirrors sites)
    (h : type? s = .ok type s') :
    LooksUp s (type.toList.flatMap (Expr.uses true))
        (type.bind (Expr.typeComplaint? (sites.map Site.name))).toList s' ∧
      Numbered s.nextId ((type.toList.flatMap Expr.idents).map Ident.id) s'.nextId := by
  obtain ⟨bare, t, type, rfl, hruns, htype⟩ | ⟨rfl, rfl, -⟩ := type?_runs h
  · have hbare := hruns.bare
    obtain ⟨hlooksUp, hids⟩ := resolveType_looksUp hbare.bare (hm.congr hbare.idle.scopes hbare.idle.objects) htype
    rw [Option.toList_some, List.flatMap_singleton, List.flatMap_singleton, hids]
    exact ⟨hbare.idle.trans hlooksUp, hbare.numbered.mono (Nat.le_refl _) hlooksUp.nextId_le⟩
  · exact ⟨.refl _, .nil (Nat.le_refl _)⟩

/-! ### Declarations -/

/-- The first name of a spec is where the spec starts, even if it is missing. -/
theorem nameList_pos {names : List Ident} {s s' : State} (h : nameList s = .ok names s') :
    ∃ first others, names = first :: others ∧ first.pos = s.token.pos := by
  obtain ⟨first, others, rfl, hlist⟩ := nameList_eq_ok.mp h
  obtain ⟨t, hfirst, -⟩ := commaList_eq_ok.mp hlist
  exact ⟨first, others, rfl, (ident_made hfirst).2.1⟩

/-- From `s` to `s'` the names, as they are bound now, are declared by one spec. -/
structure Enters (s : State) (sites : List Site) (keyword : DeclKeyword) (index : Nat) (decl : NodeId)
    (names : List Ident) (s' : State) : Prop where
  mirrors : s'.names.Mirrors (sites ++ names.map fun name => ⟨keyword, index, decl, name⟩)
  unresolved : s'.names.unresolved = s.names.unresolved
  allErrors : s'.allErrors = s.allErrors
  semantic : s.allErrors = true →
    Parse.semantic s'.findings = Parse.semantic s.findings ++ redeclarations (sites.map Site.name) names
  clean : s'.findings = [] → s.findings = []
  nextId_le : s.nextId ≤ s'.nextId

theorem semantic_redeclared (again : Option Redeclaration) :
    semantic ((again.map fun r => (r.pos, Fault.redeclared r)).map fun f => ⟨f.1, f.2⟩).toList =
      (again.map fun r => ⟨r.pos, .redeclared r⟩).toList := by
  cases again <;> rfl

theorem declare_enters {keyword : DeclKeyword} {index : Nat} {decl : NodeId} {i i' : Ident} {s s' : State}
    {sites : List Site} (hm : s.names.Mirrors sites)
    (h : declare (objectKind keyword) decl index i s = .ok i' s') :
    Enters s sites keyword index decl [i'] s' ∧ ∃ binding, i' = { i with binding } := by
  obtain ⟨hbound, hagain, hmirrors⟩ := hm.declare keyword decl index i
  rw [declare_apply] at h
  obtain ⟨_, t, hreport, h⟩ := bind_eq_ok.mp h
  obtain ⟨rfl, rfl⟩ := pure_eq_ok.mp h
  have hidle := LooksUp.reportAny hreport
  rw [semantic_redeclared, hagain] at hidle
  rw [hbound]
  refine ⟨⟨hmirrors.congr hidle.scopes hidle.objects, ?_, hidle.allErrors, fun hall => ?_, hidle.clean,
    hidle.nextId_le⟩, _, rfl⟩
  · rw [← unresolved_declare s.names i (objectKind keyword) decl index]
    simpa [unresolvedIn] using hidle.unresolved
  · rw [hidle.semantic hall, redeclarations, redeclarations, List.append_nil]
    rfl

theorem mapM_declare_enters {keyword : DeclKeyword} {index : Nat} {decl : NodeId} {names names' : List Ident}
    {s s' : State} {sites : List Site} (hm : s.names.Mirrors sites)
    (h : names.mapM (declare (objectKind keyword) decl index) s = .ok names' s') :
    Enters s sites keyword index decl names' s' ∧
      List.Forall₂ (fun i i' => ∃ binding, i' = { i with binding }) names names' := by
  induction names generalizing names' s sites with
  | nil =>
    rw [List.mapM_nil] at h
    obtain ⟨rfl, rfl⟩ := pure_eq_ok.mp h
    refine ⟨⟨?_, rfl, rfl, fun _ => (List.append_nil _).symm, id, Nat.le_refl _⟩, .nil⟩
    rwa [List.map_nil, List.append_nil]
  | cons i names ih =>
    obtain ⟨i', t, rest, hi, hrest, rfl⟩ := mapM_cons_eq_ok h
    obtain ⟨hfirst, hbinding⟩ := declare_enters hm hi
    obtain ⟨hothers, hbindings⟩ := ih hfirst.mirrors hrest
    refine ⟨⟨?_, hothers.unresolved.trans hfirst.unresolved, hothers.allErrors.trans hfirst.allErrors,
      fun hall => ?_, fun hclean => hfirst.clean (hothers.clean hclean),
      Nat.le_trans hfirst.nextId_le hothers.nextId_le⟩, .cons hbinding hbindings⟩
    · have hmirrors := hothers.mirrors
      rwa [List.append_assoc] at hmirrors
    · rw [hothers.semantic (hfirst.allErrors.trans hall), hfirst.semantic hall, List.append_assoc,
        List.map_append, redeclarations, redeclarations, redeclarations, List.append_nil]
      rfl

theorem semantic_shapeFault? {x : Entry} {pos : Pos} {names : List Ident} (hpos : pos = x.spec.pos)
    (hlength : names.length = x.spec.names.length) :
    semantic ((shapeFault? x.keyword x.index pos names x.spec.type x.spec.values).map
      fun f => ⟨f.1, f.2⟩).toList = x.shapeComplaint?.toList := by
  have hsame : shapeFault? x.keyword x.index pos names x.spec.type x.spec.values =
      shapeFault? x.keyword x.index x.spec.pos x.spec.names x.spec.type x.spec.values := by
    rw [shapeFault?.eq_def, shapeFault?.eq_def, hpos, hlength]
  rw [hsame, map_shapeFault?, semantic, List.filter_eq_self]
  intro f hf
  exact decide_eq_true (x.kind_shapeComplaint? f (Option.mem_toList.mp hf))

/-- What has been looked up when the names of a spec are declared, and what declares them. -/
theorem SpecRuns.looksUp {keyword : DeclKeyword} {index : Nat} {s s' : State} {sp : Spec} {sites : List Site}
    (h : SpecRuns keyword index s sp s') (hm : s.names.Mirrors sites) :
    ∃ t, LooksUp s sp.uses
        ((sp.type.bind (Expr.typeComplaint? (sites.map Site.name))).toList ++
          (Entry.shapeComplaint? ⟨keyword, index, sp⟩).toList) t ∧
      Numbered s.nextId (sp.uses.map (·.ident.id)) t.nextId ∧ Enters t sites keyword index sp.id sp.names s' := by
  obtain @⟨t, u, v, w, x, _, names, names', type, values, hnames, htype, hvalues, hclose, hshape, hdeclare⟩ := h
  have hidle := Idle.nameList _ _ _ hnames
  obtain ⟨htypeUp, htypeIds⟩ := type?_looksUp (hm.congr hidle.scopes hidle.objects) htype
  have hmade := initialValues_made hvalues
  have hread := (hidle.trans htypeUp).trans hmade.looksUp
  have hidleClose := ((Idle.expectSemi _ _ _ hclose).trans (.reportAny hshape)).before (.freshId x)
  have hlooksUp := hread.trans hidleClose
  obtain ⟨henters, hbindings⟩ :=
    mapM_declare_enters (hm.congr hlooksUp.scopes hlooksUp.objects) hdeclare
  refine ⟨_, ?_, ?_, henters⟩
  · obtain ⟨first, others, rfl, hfirst⟩ := nameList_pos hnames
    have hpos : s.token.pos = (Spec.mk x.nextId names' type values).pos := by
      cases hbindings with
      | cons hbinding _ =>
        obtain ⟨binding, rfl⟩ := hbinding
        exact hfirst.symm
    have hcomplaint := semantic_shapeFault? (x := ⟨keyword, index, ⟨x.nextId, names', type, values⟩⟩) hpos
      hbindings.length_eq
    rw [hcomplaint] at hlooksUp
    simpa [Spec.uses] using hlooksUp
  · rw [Spec.uses, List.map_append, map_id_flatMap_uses, map_id_flatMap_uses]
    have hids := htypeIds.append hmade.numbered
    exact hids.mono hidle.nextId_le hidleClose.nextId_le

end Parse

end RoseLang
