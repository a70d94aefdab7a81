import RoseLang.Proofs.Parse.Sound.Expr

/-!
# Statements read without a fault

What the parsers for declarations and statements make without a fault is what the grammar makes of the
tokens that were read, and the declarations are admissible. A terminator may be missing before a closing
parenthesis or brace, but no statement starts there, so that a fault would follow.
-/

namespace RoseLang.Parse

open Grammar

variable {α β : Type}

/-- The tokens of an expression that needs no more levels than a parse has. -/
def IsShallow (ts : List Token) (e : Expr) : Prop := IsExpr .expr ts e ∧ e.levels ≤ maxDepth

theorem mapM_cons_eq_ok {f : α → Parser β} {a : α} {as : List α} {bs : List β} {s s' : State}
    (h : (a :: as).mapM f s = .ok bs s') :
    ∃ b t rest, f a s = .ok b t ∧ as.mapM f t = .ok rest s' ∧ bs = b :: rest := by
  rw [List.mapM_cons] at h
  obtain ⟨b, t, hb, h⟩ := bind_eq_ok.mp h
  obtain ⟨rest, u, hrest, h⟩ := bind_eq_ok.mp h
  obtain ⟨rfl, rfl⟩ := pure_eq_ok.mp h
  exact ⟨b, t, rest, hb, hrest, rfl⟩

/-! ### Lists -/

section
variable {item : Parser α} {IsItem : List Token → α → Prop} (hbuilt : Built item)
  (hitem : ∀ {s s' : State} {a : α}, s.Terminated → s'.findings = [] → item s = .ok a s' →
    ∃ ts, Reads s ts s' ∧ IsItem ts a)
include hbuilt hitem

theorem CommaRuns.reads {n : Nat} {s s' : State} {as : List α} (h : CommaRuns item n s as s') (hs : s.Terminated)
    (hclean : s'.findings = []) : ∃ ts, Reads s ts s' ∧ Further .comma IsItem ts as := by
  induction h with
  | full | stop => exact ⟨[], .refl _, further_nil⟩
  | @more n s t s' a as hcomma hfirst hrest ih =>
    have ht : t.findings = [] := (hrest.extends hbuilt).clean hclean
    have hread := Reads.next hs (by rw [hcomma]; decide)
    obtain ⟨us, hreadItem, hisItem⟩ := hitem (hread.terminated hs) ht hfirst
    have hreads := hread.trans hreadItem
    obtain ⟨ts, hreadRest, hfurther⟩ := ih (hreads.terminated hs) hclean
    exact ⟨_, hreads.trans hreadRest, hfurther.cons hcomma hisItem⟩

theorem commaList_reads {s s' : State} {list : α × List α} (hs : s.Terminated) (hclean : s'.findings = [])
    (h : commaList item s = .ok list s') :
    ∃ ts, Reads s ts s' ∧ Separated .comma IsItem ts (list.1 :: list.2) := by
  obtain ⟨t, hfirst, hothers⟩ := commaList_eq_ok.mp h
  obtain ⟨us, hread, hisItem⟩ := hitem hs ((hothers.extends hbuilt).clean hclean) hfirst
  obtain ⟨ts, hreads, hfurther⟩ := hothers.reads hbuilt hitem (hread.terminated hs) hclean
  exact ⟨_, hread.trans hreads, hfurther _ _ hisItem⟩

end

theorem isName_reads {s s' : State} {i : Ident} (hs : s.Terminated) (hclean : s'.findings = [])
    (h : ident s = .ok i s') : ∃ ts, Reads s ts s' ∧ IsName ts i := by
  obtain ⟨hread, hfits⟩ := ident_reads hs hclean h
  exact ⟨_, hread, isName_of_fits hfits⟩

theorem nameList_reads {s s' : State} {names : List Ident} (hs : s.Terminated) (hclean : s'.findings = [])
    (h : nameList s = .ok names s') :
    s.token.kind = .ident ∧ ∃ ts, Reads s ts s' ∧ Separated .comma IsName ts names := by
  obtain ⟨first, others, rfl, hlist⟩ := nameList_eq_ok.mp h
  obtain ⟨t, hfirst, hothers⟩ := commaList_eq_ok.mp hlist
  have ht : t.findings = [] := (hothers.extends .ident).clean hclean
  exact ⟨(ident_clean ht hfirst).1, commaList_reads .ident isName_reads hs hclean hlist⟩

theorem exprs_reads {lhs : Bool} {s s' : State} {list : Expr × List Expr} (hs : s.Terminated)
    (hclean : s'.findings = []) (h : commaList (expr lhs) s = .ok list s') :
    ∃ ts, Reads s ts s' ∧ Separated .comma IsShallow ts (list.1 :: list.2) :=
  commaList_reads (.expr lhs) expr_reads hs hclean h

theorem rhsList_reads {s s' : State} {es : List Expr} (hs : s.Terminated) (hclean : s'.findings = [])
    (h : rhsList s = .ok es s') : ∃ ts, Reads s ts s' ∧ Separated .comma IsShallow ts es := by
  obtain ⟨first, others, t, rfl, hlist, rfl⟩ := rhsList_eq_ok.mp h
  have ht : t.findings = [] := hclean
  obtain ⟨ts, hreads, hes⟩ := exprs_reads (s := { s with inRhs := true }) hs ht hlist
  exact ⟨ts, hreads.setRhs, hes⟩

/-- An expression that is looked up has the tokens that it had. -/
theorem resolveExpr_shallow {e e' : Expr} {s s' : State} (h : resolveExpr e s = .ok e' s') :
    Reads s [] s' ∧ ∀ ts, IsShallow ts e → IsShallow ts e' := by
  obtain ⟨hreads, rfl | ⟨id, i, binding, rfl, rfl⟩⟩ := resolveExpr_reads h
  · exact ⟨hreads, fun _ h => h⟩
  · refine ⟨hreads, fun ts hexpr => ⟨?_, Nat.zero_le _⟩⟩
    have hfit : Mark.FitAll [i.mark] ts := hexpr.1.fitAll
    exact (isExpr_of_fitAll (e := .ident id { i with binding }) trivial trivial hfit).1

theorem mapM_resolveExpr_shallow {es es' : List Expr} {s s' : State}
    (h : es.mapM resolveExpr s = .ok es' s') :
    Reads s [] s' ∧ List.Forall₂ (fun e e' => ∀ ts, IsShallow ts e → IsShallow ts e') es es' := by
  induction es generalizing es' s with
  | nil =>
    rw [List.mapM_nil] at h
    obtain ⟨rfl, rfl⟩ := pure_eq_ok.mp h
    exact ⟨.refl s, .nil⟩
  | cons e es ih =>
    obtain ⟨e', t, rest, he, hrest, rfl⟩ := mapM_cons_eq_ok h
    obtain ⟨hreads, hexpr⟩ := resolveExpr_shallow he
    obtain ⟨hreads', hexprs⟩ := ih hrest
    exact ⟨hreads.trans hreads', .cons hexpr hexprs⟩

theorem LhsRuns.reads {s s' : State} {list : Expr × List Expr} (h : LhsRuns s list s') (hs : s.Terminated)
    (hclean : s'.findings = []) :
    ∃ ts, Reads s ts s' ∧ Separated .comma IsShallow ts (list.1 :: list.2) := by
  have hraw : ∀ {list : Expr × List Expr} {t : State}, t.findings = [] →
      commaList (expr true) { s with inRhs := false } = .ok list t →
        ∃ ts, Reads s ts { t with inRhs := s.inRhs } ∧ Separated .comma IsShallow ts (list.1 :: list.2) := by
    intro list t ht hlist
    obtain ⟨ts, hreads, hes⟩ := exprs_reads (s := { s with inRhs := false }) hs ht hlist
    exact ⟨ts, hreads.setRhs, hes⟩
  cases h with
  | waiting hlist hcolon => exact hraw hclean hlist
  | @lookedUp t u s' first first' others others' hlist hkind hfirst hothers =>
    have hlooked := (Extends.of_ok (.resolveExpr _) hfirst).trans (.of_ok (.mapM .resolveExpr _) hothers)
    have ht : t.findings = [] := hlooked.clean hclean
    obtain ⟨ts, hreads, hes⟩ := hraw ht hlist
    obtain ⟨hreadFirst, hfirst'⟩ := resolveExpr_shallow hfirst
    obtain ⟨hreadOthers, hothers'⟩ := mapM_resolveExpr_shallow hothers
    refine ⟨ts, ?_, hes.replace (.cons hfirst' hothers')⟩
    simpa using (hreads.trans hreadFirst).trans hreadOthers

/-! ### Declarations -/

/-- The names that are declared one after the other are new, each of them. -/
theorem mapM_declare_makes {kind : ObjectKind} {decl : NodeId} {index : Nat} {names names' : List Ident}
    {s s' : State} (hclean : s'.findings = []) (h : names.mapM (declare kind decl index) s = .ok names' s') :
    s'.tokens = s.tokens ∧ (s.Quiet → s'.Quiet) ∧ s'.depth = s.depth ∧ s'.inRhs = s.inRhs ∧
      List.Forall₂ (fun i i' => ∃ binding, i' = { i with binding }) names names' ∧
      ∀ declared, s.names.Declares declared →
        s'.names.Declares (declared ++ (names.map Ident.name).filter (· ≠ Ident.blank)) := by
  induction names generalizing names' s with
  | nil =>
    rw [List.mapM_nil] at h
    obtain ⟨rfl, rfl⟩ := pure_eq_ok.mp h
    exact ⟨rfl, id, rfl, rfl, .nil, fun declared hdeclared => by simpa using hdeclared⟩
  | cons i names ih =>
    obtain ⟨i', t, rest, hi, hrest, rfl⟩ := mapM_cons_eq_ok h
    have ht : t.findings = [] :=
      (Extends.of_ok (.mapM (.declare kind decl index) names) hrest).clean hclean
    rw [declare_apply] at hi
    obtain ⟨_, u, hreport, hi⟩ := bind_eq_ok.mp hi
    obtain ⟨rfl, rfl⟩ := pure_eq_ok.mp hi
    obtain ⟨hnone, rfl⟩ := reportAny_clean ht hreport
    obtain ⟨htokens, hquiet, hdepth, hinRhs, hbindings, hdeclares⟩ := ih hrest
    refine ⟨htokens, hquiet, hdepth, hinRhs, .cons (s.names.ident_declare i) hbindings, fun declared hdeclared => ?_⟩
    have hfirst := hdeclared.declare.2 (Option.map_eq_none_iff.mp hnone)
    have hall := hdeclares _ hfirst
    rwa [List.append_assoc, ← List.filter_append] at hall

theorem map_name_of_forall₂ {names names' : List Ident}
    (h : List.Forall₂ (fun i i' => ∃ binding, i' = { i with binding }) names names') :
    names'.map Ident.name = names.map Ident.name := by
  induction h with
  | nil => rfl
  | cons hi hrest ih =>
    obtain ⟨binding, rfl⟩ := hi
    rw [List.map_cons, List.map_cons, ih]

theorem initialValues_reads {s s' : State} {values : List Expr} (hs : s.Terminated)
    (hclean : s'.findings = []) (h : initialValues s = .ok values s') :
    ∃ ts, Reads s ts s' ∧ IsValues ts values ∧ ∀ e ∈ values, e.levels ≤ maxDepth := by
  obtain ⟨hassign, hrhs⟩ | ⟨-, rfl, rfl⟩ := initialValues_eq_ok.mp h
  · have hread := Reads.next hs (by rw [hassign]; decide)
    obtain ⟨ts, hreads, hlist⟩ := rhsList_reads (hread.terminated hs) hclean hrhs
    refine ⟨_, hread.trans hreads, .some hassign (hlist.imp fun _ _ h => h.1), ?_⟩
    exact hlist.forall_mem fun _ _ h => h.2
  · exact ⟨[], .refl _, .none, by simp⟩

/-- The tokens `ts` make the specs `xs`; a terminator after them has been read as well, or none is asked
for. -/
def MakesClosed (s : State) (ts : List Token) (xs : List Entry) (s' : State) : Prop :=
  (∃ t, t.kind = .semi ∧ Makes s (ts ++ [t]) xs s') ∨
    Makes s ts xs s' ∧ (s'.token.kind = .rparen ∨ s'.token.kind = .rbrace)

theorem Makes.before {s t u : State} {ts us : List Token} {xs ys : List Entry} (h : Makes s ts xs t)
    (h' : MakesClosed t us ys u) : MakesClosed s (ts ++ us) (xs ++ ys) u := by
  rcases h' with ⟨semi, hsemi, h'⟩ | ⟨h', hkind⟩
  · refine .inl ⟨semi, hsemi, ?_⟩
    rw [List.append_assoc]
    exact h.trans h'
  · exact .inr ⟨h.trans h', hkind⟩

theorem Makes.closed {s t u : State} {ts : List Token} {xs : List Entry} (hs : s.Terminated)
    (h : Makes s ts xs t) (hclean : u.findings = []) (hsemi : expectSemi t = .ok () u) :
    MakesClosed s ts xs u := by
  rcases expectSemi_clean hclean hsemi with ⟨hkind, rfl⟩ | ⟨hkind, rfl⟩
  · have hnext := Reads.next (h.terminated hs) (by rw [hkind]; decide)
    exact .inl ⟨t.token, hkind, by simpa using h.trans hnext.makes⟩
  · exact .inr ⟨h, hkind⟩

theorem MakesClosed.freshId {s s' : State} {ts : List Token} {xs : List Entry}
    (h : MakesClosed s ts xs s') : MakesClosed s ts xs { s' with nextId := s'.nextId + 1 } := by
  rcases h with ⟨semi, hsemi, h⟩ | ⟨h, hkind⟩
  · exact .inl ⟨semi, hsemi, h.tokens, h.quiet, h.depth, h.inRhs, h.declares⟩
  · exact .inr ⟨⟨h.tokens, h.quiet, h.depth, h.inRhs, h.declares⟩, hkind⟩

theorem MakesClosed.tokens_length {s s' : State} {ts : List Token} {xs : List Entry}
    (h : MakesClosed s ts xs s') : ts.length + s'.tokens.length ≤ s.tokens.length := by
  rcases h with ⟨t, -, h⟩ | ⟨h, -⟩
  · simp [h.tokens]
  · simp [h.tokens]

/-- A spec is made when its names are declared, if there is no fault in its shape. -/
private theorem Reads.declares {keyword : DeclKeyword} {index : Nat} {pos : Pos} {names names' : List Ident}
    {type : Option Expr} {values : List Expr} {s x s' : State} {us : List Token} (h : Reads s us x)
    (hshape : shapeFault? keyword index pos names type values = none)
    (htype : ∀ declared, s.names.Declares declared → ¬ (Spec.mk x.nextId names' type values).TypeIn declared)
    (hclean : s'.findings = [])
    (hdeclare : names.mapM (declare (objectKind keyword) x.nextId index) { x with nextId := x.nextId + 1 } =
      .ok names' s') : Makes s us [⟨keyword, index, ⟨x.nextId, names', type, values⟩⟩] s' := by
  obtain ⟨htokens, hquiet, hdepth, hinRhs, hbindings, hdeclares⟩ := mapM_declare_makes hclean hdeclare
  have hsame := map_name_of_forall₂ hbindings
  refine ⟨h.tokens.trans (congrArg _ htokens.symm), fun hq => hquiet (h.quiet hq), hdepth.trans h.depth,
    hinRhs.trans h.inRhs, fun hdeclared => ?_⟩
  have hafter := hdeclares _ (hdeclared.congr h.scopes)
  rw [← hsame] at hafter
  refine ⟨⟨⟨?_, htype _ hdeclared, hafter.nodup⟩, trivial⟩, ?_⟩
  · have hshaped := @shapeFault?_eq_none_iff ⟨keyword, index, ⟨x.nextId, names, type, values⟩⟩ pos
    have hlength : names'.length = names.length := by simpa using congrArg List.length hsame
    simpa [Entry.Shaped, hlength] using hshaped.mp hshape
  · rw [declaredIn_cons, declaredIn, List.flatMap_nil, List.append_nil]
    exact hafter

theorem SpecRuns.makes {keyword : DeclKeyword} {index : Nat} {s s' : State} {sp : Spec}
    (h : SpecRuns keyword index s sp s') (hs : s.Terminated) (hclean : s'.findings = []) :
    s.token.kind = .ident ∧ (∀ e ∈ sp.exprs, e.levels ≤ maxDepth) ∧
      ∃ ts, IsSpec ts sp ∧ MakesClosed s ts [⟨keyword, index, sp⟩] s' := by
  obtain @⟨t, u, v, w, x, _, names, names', type, values, hnames, htype, hvalues, hsemi, hshape, hdeclare⟩ := h
  have hx : x.findings = [] := (Extends.of_ok (.mapM (.declare _ _ _) names) hdeclare).clean hclean
  obtain ⟨hnone, rfl⟩ := reportAny_clean hx hshape
  have hv : v.findings = [] := (Extends.of_ok .expectSemi hsemi).clean hx
  have hu : u.findings = [] := (Extends.of_ok .initialValues hvalues).clean hv
  have ht : t.findings = [] := (Extends.of_ok .type? htype).clean hu
  obtain ⟨hident, ns, hreadNames, hisNames⟩ := nameList_reads hs ht hnames
  have hst := hreadNames.terminated hs
  obtain ⟨ts, hreadType, hisType, htypeLevels, hfree⟩ := type?_reads hst hu htype
  have hsu := hreadType.terminated hst
  obtain ⟨vs, hreadValues, hisValues, hvalueLevels⟩ := initialValues_reads hsu hv hvalues
  have hreads := (hreadNames.trans hreadType).trans hreadValues
  obtain ⟨htokens, -, -, -, hbindings, -⟩ := mapM_declare_makes hclean hdeclare
  have hmakes : ∀ us, Reads s us x → Makes s us [⟨keyword, index, ⟨x.nextId, names', type, values⟩⟩] s' :=
    fun us hreads => hreads.declares hnone
      (fun _ hdeclared => hfree _ (hdeclared.congr hreadNames.scopes) _ rfl) hclean hdeclare
  have hisSpec : IsSpec (ns ++ ts ++ vs) ⟨x.nextId, names', type, values⟩ := by
    refine .mk (hisNames.replace ?_) hisType hisValues
    apply hbindings.imp
    intro i i' hbinding us hname
    obtain ⟨binding, rfl⟩ := hbinding
    obtain ⟨hkind, hpos, hword⟩ := hname
    exact ⟨hkind, hpos, hword⟩
  refine ⟨hident, List.forall_mem_append.mpr ⟨fun e he => ?_, hvalueLevels⟩, _, hisSpec, ?_⟩
  · exact htypeLevels e (Option.mem_toList.mp he)
  · rcases expectSemi_clean hx hsemi with ⟨hkind, rfl⟩ | ⟨hkind, rfl⟩
    · have hread := Reads.next (hreads.terminated hs) (by rw [hkind]; decide)
      exact .inl ⟨_, hkind, hmakes _ (hreads.trans hread)⟩
    · have htoken : s'.token = x.token := (List.cons.inj htokens).1
      exact .inr ⟨hmakes _ hreads, htoken ▸ hkind⟩

/-- No spec starts with a right brace. -/
private theorem SpecsRuns.not_rbrace {keyword : DeclKeyword} {index n : Nat} {s s' : State} {entries : List Spec}
    (h : SpecsRuns keyword index n s entries s') (hs : s.Terminated) (hclean : s'.findings = [])
    (hend : s'.token.kind = .rparen) : s.token.kind ≠ .rbrace := by
  intro hrbrace
  cases h with
  | full | stop =>
    rw [hrbrace] at hend
    cases hend
  | more hgo hfirst hrest =>
    have hident := ((SpecRuns.of_ok hfirst).makes hs (hrest.extends.clean hclean)).1
    rw [hrbrace] at hident
    cases hident

/-- Before a right parenthesis the specs are a group. -/
theorem SpecsRuns.makes {keyword : DeclKeyword} {index n : Nat} {s s' : State} {entries : List Spec}
    (h : SpecsRuns keyword index n s entries s') (hs : s.Terminated) (hclean : s'.findings = [])
    (hend : s'.token.kind = .rparen) :
    (∀ e ∈ entries.flatMap Spec.exprs, e.levels ≤ maxDepth) ∧
      ∃ ts, IsGroup ts entries ∧ Makes s ts (entriesFrom keyword index entries) s' := by
  induction h with
  | full | stop => exact ⟨List.forall_mem_nil _, [], .empty, (Reads.refl _).makes⟩
  | @more index n s t s' first others hgo hfirst hrest ih =>
    obtain ⟨-, hlevels, ts, hspec, hclosed⟩ := (SpecRuns.of_ok hfirst).makes hs (hrest.extends.clean hclean)
    have hterm := (Extends.of_ok (.spec keyword index) hfirst).terminated hs
    obtain ⟨hlevels', us, hgroup, hmakes'⟩ := ih hterm hclean hend
    rw [List.flatMap_cons]
    refine ⟨List.forall_mem_append.mpr ⟨hlevels, hlevels'⟩, ?_⟩
    rcases hclosed with ⟨semi, hsemi, hmakes⟩ | ⟨hmakes, hkind | hkind⟩
    · refine ⟨ts ++ semi :: us, ?_, by simpa [entriesFrom_cons] using hmakes.trans hmakes'⟩
      cases hgroup with
      | empty => exact .closed (.one hspec) hsemi
      | specs hspecs => exact .specs (.more hspec hsemi hspecs)
      | closed hspecs hlast =>
        rw [← List.cons_append, ← List.append_assoc]
        exact .closed (.more hspec hsemi hspecs) hlast
    · cases hrest with
      | full | stop => exact ⟨ts, .specs (.one hspec), hmakes⟩
      | more hgo => exact absurd (.inl hkind) hgo
    · exact absurd hkind (hrest.not_rbrace hterm hclean hend)

theorem DeclRuns.makes {keyword : DeclKeyword} {s s' : State} {d : Decl} (h : DeclRuns keyword s d s')
    (hs : s.Terminated) (hclean : s'.findings = []) :
    (∀ e ∈ d.exprs, e.levels ≤ maxDepth) ∧ ∃ ts, IsDecl ts d ∧ MakesClosed s ts d.entries s' := by
  -- The keyword is there, since a fault would have been kept.
  have hopen : ∀ {t : State} {keywordPos : Pos}, t.findings = [] → expect keyword.token s = .ok keywordPos t →
      DeclKeyword.ofToken? s.token.kind = some keyword ∧ keywordPos = s.token.pos ∧ t = s.next ∧
        Reads s [s.token] s.next := by
    intro t keywordPos ht hkeyword
    obtain ⟨hkind, rfl, rfl⟩ := expect_clean ht hkeyword
    exact ⟨by rw [hkind, DeclKeyword.ofToken?_token], rfl, rfl,
      Reads.next hs (by rw [hkind]; cases keyword <;> decide)⟩
  cases h with
  | @group t u v w x keywordPos lparen rparen entries hkeyword hkind hlparen hentries hrparen hclose =>
    have hx : x.findings = [] := hclean
    have hw : w.findings = [] := (Extends.of_ok .expectSemi hclose).clean hx
    have hv : v.findings = [] := (Extends.of_ok (.expect _) hrparen).clean hw
    have hu : u.findings = [] := (Extends.of_ok (.specs _ _ _) hentries).clean hv
    obtain ⟨hk, rfl, rfl, hreadKeyword⟩ := hopen ((Extends.of_ok (.expect _) hlparen).clean hu) hkeyword
    obtain ⟨-, rfl, rfl⟩ := expect_clean hu hlparen
    obtain ⟨hrparenKind, rfl, rfl⟩ := expect_clean hw hrparen
    have hread := hreadKeyword.trans (Reads.next (hreadKeyword.terminated hs) (by rw [hkind]; decide))
    obtain ⟨hlevels, ts, hgroup, hmakes⟩ := (SpecsRuns.of_ok hentries).makes (hread.terminated hs) hv hrparenKind
    have hinner := hread.makes.trans hmakes
    have hmade := hinner.trans (Reads.next (hinner.terminated hs) (by rw [hrparenKind]; decide)).makes
    refine ⟨hlevels, _, .group hk hkind hgroup hrparenKind, ?_⟩
    have hclosed := (hmade.closed hs hx hclose).freshId
    simpa [Decl.entries] using hclosed
  | @single t u keywordPos entry hkeyword hkind hentry =>
    have hu : u.findings = [] := hclean
    obtain ⟨hk, rfl, rfl, hreadKeyword⟩ := hopen ((Extends.of_ok (.spec _ _) hentry).clean hu) hkeyword
    obtain ⟨-, hlevels, ts, hspec, hclosed⟩ := (SpecRuns.of_ok hentry).makes (hreadKeyword.terminated hs) hu
    refine ⟨?_, _, .spec hk hspec, (hreadKeyword.makes.before hclosed).freshId⟩
    rwa [Decl.exprs, List.flatMap_singleton]

/-! ### Statements -/

/-- Where one expression is asked for there is no other one, since it would have been reported. -/
theorem one_reads {s t u : State} {first : Expr} {others : List Expr} (hs : s.Terminated) (hu : u.findings = [])
    (hlist : lhsList s = .ok (first, others) t)
    (hone : reportAny (if others.isEmpty then none else some (first.pos, .severalExpressions)) t = .ok () u) :
    u = t ∧ ∃ ts, Reads s ts t ∧ IsShallow ts first := by
  obtain ⟨hnone, rfl⟩ := reportAny_clean hu hone
  obtain ⟨ts, hreads, hleft⟩ := (LhsRuns.of_ok hlist).reads hs hu
  cases hleft with
  | one hfirst => exact ⟨rfl, ts, hreads, hfirst⟩
  | more hfirst hsep hrest =>
    obtain ⟨e, es, hes : others = e :: es⟩ := List.exists_cons_of_ne_nil hrest.ne_nil
    rw [hes] at hnone
    cases hnone

theorem SimpleRuns.reads {s s' : State} {made : NodeId → Stmt} (h : SimpleRuns s made s') (hs : s.Terminated)
    (hclean : s'.findings = []) :
    ∃ ts, Reads s ts s' ∧ ∀ id, IsSimple ts (made id) ∧ (made id).entries = [] ∧
      ∀ e ∈ (made id).exprs, e.levels ≤ maxDepth := by
  cases h with
  | @assign t s' first others right op hlist hassign hright =>
    have ht : t.findings = [] := (Extends.next t).clean ((Extends.of_ok .rhsList hright).clean hclean)
    obtain ⟨ls, hreadLeft, hleft⟩ := (LhsRuns.of_ok hlist).reads hs ht
    have hkind := AssignOp.token_of_ofToken? hassign
    have hread := Reads.next (hreadLeft.terminated hs) (by rw [← hkind]; cases op <;> decide)
    obtain ⟨rs, hreadRight, hright'⟩ := rhsList_reads (hread.terminated (hreadLeft.terminated hs)) hclean hright
    refine ⟨ls ++ t.token :: rs, hreadLeft.trans (hread.trans hreadRight), fun id => ⟨?_, rfl, ?_⟩⟩
    · exact .assign (hleft.imp fun _ _ h => h.1) hassign (hright'.imp fun _ _ h => h.1)
    · exact List.forall_mem_append.mpr
        ⟨hleft.forall_mem fun _ _ h => h.2, hright'.forall_mem fun _ _ h => h.2⟩
  | @incDec t u first others increment hlist hkind hone =>
    obtain ⟨rfl, ts, hreads, hexpr⟩ := one_reads hs ((Extends.next u).clean hclean) hlist hone
    have hread := Reads.next (hreads.terminated hs) (by rw [hkind]; cases increment <;> decide)
    refine ⟨_, hreads.trans hread, fun id => ⟨.incDec hexpr.1 hkind, rfl, ?_⟩⟩
    exact List.forall_mem_singleton.mpr hexpr.2
  | other hlist hassign hincDec hone =>
    obtain ⟨rfl, ts, hreads, hexpr⟩ := one_reads hs hclean hlist hone
    exact ⟨ts, hreads, fun id => ⟨.expr hexpr.1, rfl, List.forall_mem_singleton.mpr hexpr.2⟩⟩

/-- What is closed by a terminator is a statement. Otherwise it takes some tokens and a parenthesis or a
brace follows. -/
theorem MakesClosed.stmt {s s' : State} {ts : List Token} {st : Stmt} (h : MakesClosed s ts st.entries s')
    (hne : ts ≠ []) (hstmt : ∀ t : Token, t.kind = .semi → IsStmt (ts ++ [t]) st) :
    (∃ ts, IsStmt ts st ∧ Makes s ts st.entries s') ∨
      s'.tokens.length < s.tokens.length ∧ (s'.token.kind = .rparen ∨ s'.token.kind = .rbrace) := by
  have hlength := h.tokens_length
  rcases h with ⟨semi, hsemi, hmakes⟩ | ⟨hmakes, hclose⟩
  · exact .inl ⟨_, hstmt semi hsemi, hmakes⟩
  · refine .inr ⟨?_, hclose⟩
    have := List.length_pos_iff.mpr hne
    omega

/-- A statement read without a fault starts where one may start, and makes at least one token its own. -/
theorem stmt_makes {s s' : State} {st : Stmt} (hs : s.Terminated) (hclean : s'.findings = [])
    (h : stmt s = .ok st s') :
    s.token.kind ≠ .rparen ∧ s.token.kind ≠ .rbrace ∧ (∀ e ∈ st.exprs, e.levels ≤ maxDepth) ∧
      ((∃ ts, IsStmt ts st ∧ Makes s ts st.entries s') ∨
        s'.tokens.length < s.tokens.length ∧ (s'.token.kind = .rparen ∨ s'.token.kind = .rbrace)) := by
  cases StmtRuns.of_ok h with
  | @keyword t keyword d hkeyword hdecl =>
    have hkind := DeclKeyword.token_of_ofToken? hkeyword
    have ht : t.findings = [] := hclean
    obtain ⟨hlevels, ts, hisDecl, hclosed⟩ := (DeclRuns.of_ok hdecl).makes hs ht
    rw [← hkind]
    refine ⟨?_, ?_, hlevels, hclosed.freshId.stmt hisDecl.ne_nil fun _ hsemi => .decl hisDecl hsemi⟩
    · cases keyword <;> decide
    · cases keyword <;> decide
  | semi hsemi =>
    have hread := (Reads.next hs (by rw [hsemi]; decide)).freshId
    rw [hsemi]
    exact ⟨by decide, by decide, List.forall_mem_nil _, .inl ⟨_, .empty hsemi, hread.makes⟩⟩
  | @operand t u made hoperand hsimple hclose =>
    have hu : u.findings = [] := hclean
    have ht : t.findings = [] := (Extends.of_ok .expectSemi hclose).clean hu
    obtain ⟨ts, hreads, hmade⟩ := (SimpleRuns.of_ok hsimple).reads hs ht
    obtain ⟨hisSimple, hentries, hlevels⟩ := hmade u.nextId
    have hclosed := (hreads.makes.closed hs hu hclose).freshId
    rw [← hentries] at hclosed
    refine ⟨?_, ?_, hlevels, hclosed.stmt hisSimple.ne_nil fun _ hsemi => .simple hisSimple hsemi⟩
    · intro hkind
      rw [hkind] at hoperand
      cases hoperand
    · intro hkind
      rw [hkind] at hoperand
      cases hoperand
  | @other t span hkeyword hoperand hsemi hskipped =>
    have ht : t.findings = [] := hclean
    exact absurd ht (not_clean_of_skipped (fun _ _ => not_clean_of_expected) hskipped)

/-- Where a parenthesis or a brace is closed no statement is read without a fault. -/
theorem stmts_not_closed {n : Nat} {s s' : State} (hs : s.Terminated) (hclean : s'.findings = [])
    (h : stmts (n + 1) s = .ok () s') : ¬ (s.token.kind = .rparen ∨ s.token.kind = .rbrace) := by
  rw [stmts, currentKind_bind] at h
  split at h
  · next heof =>
    rw [heof]
    decide
  · obtain ⟨st, t, hst, h⟩ := bind_eq_ok.mp h
    rw [modify_bind] at h
    have ht : t.findings = [] := ((stmts_faultless n).of_ok h hclean).1
    obtain ⟨hrparen, hrbrace, -⟩ := stmt_makes hs ht hst
    exact not_or.mpr ⟨hrparen, hrbrace⟩

/-- Statements read without a fault up to the end are a file. Each takes at least one token, so that no
more of them are needed than there are tokens. -/
theorem stmts_makes {n : Nat} {s s' : State} (hs : s.Terminated) (hn : s.tokens.length ≤ n)
    (hclean : s'.findings = []) (h : stmts n s = .ok () s') :
    ∃ ts made, s.tokens = ts ++ s'.tokens ∧ s'.token.kind = .eof ∧ s'.depth = s.depth ∧ s'.inRhs = s.inRhs ∧
      s'.stmts = s.stmts ++ made ∧ IsFile ts made ∧ (∀ e ∈ made.flatMap Stmt.exprs, e.levels ≤ maxDepth) ∧
      ∀ declared, s.names.Declares declared → AllAdmissible declared (made.flatMap Stmt.entries) := by
  induction n generalizing s with
  | zero => exact absurd (Nat.le_zero.mp hn) (by simp [State.tokens])
  | succ n ih =>
    rw [stmts, currentKind_bind] at h
    split at h
    · next heof =>
      obtain ⟨-, rfl⟩ := pure_eq_ok.mp h
      exact ⟨[], [], rfl, heof, rfl, rfl, by simp, .nil, by simp, fun _ _ => trivial⟩
    · obtain ⟨st, t, hst, h⟩ := bind_eq_ok.mp h
      rw [modify_bind] at h
      have hextends := Extends.of_ok .stmt hst
      have hterm := hextends.terminated hs
      have ht : t.findings = [] := ((stmts_faultless n).of_ok h hclean).1
      obtain ⟨-, -, hlevels, ⟨ts, hisStmt, hmakes⟩ | ⟨hlength, hclose⟩⟩ := stmt_makes hs ht hst
      · have hpos := List.length_pos_iff.mpr hisStmt.ne_nil
        have htokens := congrArg List.length hmakes.tokens
        rw [List.length_append] at htokens
        obtain ⟨us, made, htokens', heof, hdepth, hinRhs, hstmts, hfile, hlevels', hadmissible⟩ :=
          ih (s := { t with stmts := t.stmts ++ [st] }) hterm (by change t.tokens.length ≤ n; omega) h
        refine ⟨ts ++ us, st :: made, ?_, heof, hdepth.trans hmakes.depth, hinRhs.trans hmakes.inRhs, ?_,
          .cons hisStmt hfile, ?_, fun declared hdeclared => ?_⟩
        · rw [hmakes.tokens, List.append_assoc]
          exact congrArg _ htokens'
        · rw [hstmts, hextends.stmts, List.append_assoc]
          rfl
        · intro e he
          rcases List.mem_append.mp (List.flatMap_cons ▸ he) with he | he
          · exact hlevels e he
          · exact hlevels' e he
        · obtain ⟨hfirst, hdeclares⟩ := hmakes.declares hdeclared
          rw [List.flatMap_cons]
          exact allAdmissible_append.mpr ⟨hfirst, hadmissible _ hdeclares⟩
      · have hpos := List.length_pos_iff.mpr t.tokens_ne_nil
        obtain ⟨m, rfl⟩ : ∃ m, n = m + 1 := ⟨n - 1, by omega⟩
        exact absurd hclose (stmts_not_closed (s := { t with stmts := t.stmts ++ [st] }) hterm hclean h)

end RoseLang.Parse
