import RoseLang.Proofs.Parse.Complete.Expr
import RoseLang.Proofs.Parse.Sound.Stmt

/-!
# Every statement of the grammar is read

Where the tokens of a statement stand ahead and its declarations are admissible, the parser reads the
statement without a fault and makes its tree, but for numbers and bindings. What follows a part of the
statement decides that the parser stops after this part: no binary operator follows an expression, no
comma a list, and neither a name nor a parenthesis a missing type.
-/

namespace RoseLang.Parse

open Grammar

/-! ### Lists -/

theorem name_ok {s : State} {ts us : List Token} {i : Ident} (hname : IsName ts i) (hahead : Ahead s ts us) :
    ∃ i' s', ident s = .ok i' s' ∧ i'.name = i.name ∧ Reads s ts s' := by
  obtain ⟨hkind, -, hword⟩ := hname
  obtain ⟨i', s', hrun, -, hword', hreads⟩ := ident_ok hahead hkind
  exact ⟨i', s', hrun, by rw [hword, hword'], hreads⟩

theorem Ahead.length_eq {s : State} {ts us : List Token} (h : Ahead s ts us) :
    ts.length + us.length = s.rest.length + 1 := by
  have hlength := congrArg List.length h.tokens
  rw [State.tokens, List.length_cons, List.length_map, List.length_append] at hlength
  exact hlength.symm

/-- There are enough tokens ahead for a list. -/
theorem Ahead.length_le_rest {s : State} {t : Token} {ts us : List Token} (h : Ahead s (t :: ts) us) :
    ts.length ≤ s.rest.length := by
  have hlength := h.length_eq
  rw [List.length_cons] at hlength
  omega

theorem Ahead.token_ne_eof {s : State} {ts us : List Token} (h : Ahead s ts us) (hts : ts ≠ [])
    (hus : us ≠ []) : s.token.kind ≠ .eof := by
  intro heof
  have hlength := congrArg List.length (h.terminated.tokens_eof heof)
  rw [h.tokens, List.length_append, List.length_singleton] at hlength
  have := List.length_pos_iff.mpr hts
  have := List.length_pos_iff.mpr hus
  omega

theorem Ahead.made {s s' : State} {ts us vs : List Token} {xs : List Entry} (h : Ahead s (ts ++ us) vs)
    (hmakes : Makes s ts xs s') : Ahead s' us vs where
  terminated := hmakes.terminated h.terminated
  quiet := hmakes.quiet h.quiet
  tokens := hmakes.tokens_eq (by rw [h.tokens, List.append_assoc])

/-- The tokens that follow do not go on with a list. -/
def EndsList (ts : List Token) : Prop := ∀ t ∈ ts.head?, t.kind ≠ .comma

theorem EndsList.token_ne {s : State} (h : EndsList s.tokens) : s.token.kind ≠ .comma := h s.token rfl

theorem shallow_of_forall {sep : Kind} {ts : List Token} {es : List Expr}
    (h : Separated sep (IsExpr .expr) ts es) (hlevels : ∀ e ∈ es, e.levels ≤ maxDepth) :
    Separated sep IsShallow ts es := by
  induction h with
  | one hexpr => exact .one ⟨hexpr, hlevels _ List.mem_cons_self⟩
  | more hexpr hsep hrest ih =>
    rw [List.forall_mem_cons] at hlevels
    exact .more ⟨hexpr, hlevels.1⟩ hsep (ih hlevels.2)

/-- The tokens that follow do not go on with an expression. -/
def EndsExpr (inRhs : Bool) (ts : List Token) : Prop := operatorOf? inRhs ts = none

theorem endsExpr_of_comma {inRhs : Bool} {t : Token} {ts : List Token} (h : t.kind = .comma) :
    EndsExpr inRhs (t :: ts) := by
  simp [EndsExpr, operatorOf?, h, BinaryOp.ofToken?]

/-- `item` reads what `Item` says where this is ahead and `Fit` allows what follows: a comma always, and what follows a
list also behind an item before. `view` shows of an item what the tokens decide. -/
structure ReadsItems {α β : Type} (item : Parser α) (Item : List Token → α → Prop) (Fit : State → List Token → Prop)
    (view : α → β) : Prop where
  ok {s : State} {ts us : List Token} {a : α} : Item ts a → Ahead s ts us → Fit s us →
    ∃ a' s', item s = .ok a' s' ∧ view a' = view a ∧ Reads s ts s'
  ne_nil {ts : List Token} {a : α} : Item ts a → ts ≠ []
  after {s s' : State} {ts us : List Token} : Fit s us → Reads s ts s' → Fit s' us
  comma {s : State} {t : Token} {us vs : List Token} : Fit s us → t.kind = .comma → Fit s (t :: vs)

namespace ReadsItems

variable {α β : Type} {item : Parser α} {Item : List Token → α → Prop} {Fit : State → List Token → Prop} {view : α → β}

theorem commaRuns (h : ReadsItems item Item Fit view) {n : Nat} {s : State} {t : Token} {ts us : List Token}
    {as : List α} (has : Separated .comma Item ts as) (ht : t.kind = .comma) (hahead : Ahead s (t :: ts) us)
    (hfit : Fit s us) (hend : EndsList us) (hn : ts.length ≤ n) :
    ∃ as' s', CommaRuns item n s as' s' ∧ as'.map view = as.map view ∧ Reads s (t :: ts) s' := by
  induction has generalizing n s t us with
  | @one ts a ha =>
    obtain ⟨m, rfl⟩ : ∃ m, n = m + 1 := ⟨n - 1, by have := List.length_pos_iff.mpr (h.ne_nil ha); omega⟩
    obtain ⟨hkind, hread, hnext⟩ := hahead.past (by rw [ht]; decide)
    obtain ⟨a', u, hrun, hview, hreads⟩ := h.ok ha hnext (h.after hfit hread)
    have hstop : CommaRuns item m u [] u := .stop (hnext.after hreads ▸ hend : EndsList u.tokens).token_ne
    refine ⟨[a'], u, .more (hkind.trans ht) hrun hstop, ?_, hread.trans hreads⟩
    rw [List.map_singleton, hview, List.map_singleton]
  | @more ts a t' ts' as ha hsep hrest ih =>
    rw [List.length_append, List.length_cons] at hn
    obtain ⟨m, rfl⟩ : ∃ m, n = m + 1 := ⟨n - 1, by omega⟩
    have hm : ts'.length ≤ m := by omega
    obtain ⟨hkind, hread, hnext⟩ := hahead.past (by rw [ht]; decide)
    obtain ⟨a', u, hrun, hview, hreads⟩ := h.ok ha hnext.append (h.comma (h.after hfit hread) hsep)
    obtain ⟨as', s', hmore, hviews, hreads'⟩ :=
      ih hsep (hnext.step hreads) (h.after hfit (hread.trans hreads)) hend hm
    refine ⟨a' :: as', s', .more (hkind.trans ht) hrun hmore, ?_, hread.trans (hreads.trans hreads')⟩
    rw [List.map_cons, hview, hviews, List.map_cons]

theorem commaList (h : ReadsItems item Item Fit view) {s : State} {ts us : List Token} {as : List α}
    (has : Separated .comma Item ts as) (hahead : Ahead s ts us) (hfit : Fit s us) (hend : EndsList us) :
    ∃ first others s', commaList item s = .ok (first, others) s' ∧ (first :: others).map view = as.map view ∧
      Reads s ts s' := by
  cases has with
  | one ha =>
    obtain ⟨a', u, hrun, hview, hreads⟩ := h.ok ha hahead hfit
    have hstop : CommaRuns item u.rest.length u [] u :=
      .stop (hahead.after hreads ▸ hend : EndsList u.tokens).token_ne
    refine ⟨a', [], u, commaList_eq_ok.mpr ⟨u, hrun, hstop⟩, ?_, hreads⟩
    rw [List.map_singleton, hview, List.map_singleton]
  | more ha hsep hrest =>
    obtain ⟨a', u, hrun, hview, hreads⟩ := h.ok ha hahead.append (h.comma hfit hsep)
    have hu := hahead.step hreads
    obtain ⟨as', s', hmore, hviews, hreads'⟩ :=
      h.commaRuns hrest hsep hu (h.after hfit hreads) hend hu.length_le_rest
    refine ⟨a', as', s', commaList_eq_ok.mpr ⟨u, hrun, hmore⟩, ?_, hreads.trans hreads'⟩
    rw [List.map_cons, hview, hviews, List.map_cons]

theorem names : ReadsItems ident IsName (fun _ _ => True) Ident.name where
  ok hname hahead _ := name_ok hname hahead
  ne_nil hname := hname.ne_nil
  after _ _ := trivial
  comma _ _ := trivial

theorem exprs (lhs : Bool) :
    ReadsItems (expr lhs) IsShallow (fun s us => s.depth = 0 ∧ EndsExpr s.inRhs us) Expr.erase where
  ok hexpr hahead hfit := expr_ok lhs hexpr.1 hexpr.2 hahead hfit.1 hfit.2
  ne_nil hexpr := hexpr.1.ne_nil
  after hfit hreads := ⟨hreads.depth.trans hfit.1, hreads.inRhs ▸ hfit.2⟩
  comma hfit hcomma := ⟨hfit.1, endsExpr_of_comma hcomma⟩

end ReadsItems

theorem nameList_ok {s : State} {ts us : List Token} {names : List Ident}
    (hnames : Separated .comma IsName ts names) (hahead : Ahead s ts us) (hend : EndsList us) :
    ∃ names' s', nameList s = .ok names' s' ∧ names'.map Ident.name = names.map Ident.name ∧
      Reads s ts s' := by
  obtain ⟨first, others, s', hlist, hnames', hreads⟩ := ReadsItems.names.commaList hnames hahead trivial hend
  exact ⟨first :: others, s', nameList_eq_ok.mpr ⟨first, others, rfl, hlist⟩, hnames', hreads⟩

theorem exprList_ok (lhs : Bool) {s : State} {ts us : List Token} {es : List Expr}
    (hes : Separated .comma IsShallow ts es) (hahead : Ahead s ts us) (hdepth : s.depth = 0)
    (hend : EndsList us) (hends : EndsExpr s.inRhs us) :
    ∃ first others s', exprList lhs s = .ok (first, others) s' ∧
      (first :: others).map Expr.erase = es.map Expr.erase ∧ Reads s ts s' := by
  rw [exprList_eq]
  exact (ReadsItems.exprs lhs).commaList hes hahead ⟨hdepth, hends⟩ hend

theorem rhsList_ok {s : State} {ts us : List Token} {es : List Expr}
    (hes : Separated .comma IsShallow ts es) (hahead : Ahead s ts us) (hdepth : s.depth = 0)
    (hend : EndsList us) (hends : EndsExpr true us) :
    ∃ es' s', rhsList s = .ok es' s' ∧ es'.map Expr.erase = es.map Expr.erase ∧ Reads s ts s' := by
  have hinside : Ahead { s with inRhs := true } ts us := ⟨hahead.terminated, hahead.quiet, hahead.tokens⟩
  obtain ⟨first, others, u, hrun, herase, hreads⟩ := exprList_ok false hes hinside hdepth hend hends
  refine ⟨first :: others, _, ?_, herase, hreads.setRhs⟩
  rw [rhsList, bind_of_ok (withRhs_eq_ok.mpr ⟨u, hrun, rfl⟩)]
  rfl

theorem mapM_resolveExpr_ok (es : List Expr) (s : State) :
    ∃ es' s', es.mapM resolveExpr s = .ok es' s' ∧ Reads s [] s' ∧
      es'.map Expr.erase = es.map Expr.erase := by
  induction es generalizing s with
  | nil => exact ⟨[], s, rfl, .refl s, rfl⟩
  | cons e es ih =>
    obtain ⟨e', t, hrun, hreads, herase⟩ := resolveExpr_ok e s
    obtain ⟨es', u, hrun', hreads', herases⟩ := ih t
    refine ⟨e' :: es', u, ?_, hreads.trans hreads', by rw [List.map_cons, herase, herases, List.map_cons]⟩
    rw [List.mapM_cons, bind_of_ok hrun, bind_of_ok hrun']
    rfl

theorem lhsList_ok {s : State} {ts us : List Token} {es : List Expr}
    (hes : Separated .comma IsShallow ts es) (hahead : Ahead s ts us) (hdepth : s.depth = 0)
    (hend : EndsList us) (hends : EndsExpr false us) :
    ∃ first others s', lhsList s = .ok (first, others) s' ∧
      (first :: others).map Expr.erase = es.map Expr.erase ∧ Reads s ts s' := by
  have hinside : Ahead { s with inRhs := false } ts us := ⟨hahead.terminated, hahead.quiet, hahead.tokens⟩
  obtain ⟨first, others, u, hrun, herase, hreads⟩ := exprList_ok true hes hinside hdepth hend hends
  have hraw : withRhs false (exprList true) s = .ok (first, others) { u with inRhs := s.inRhs } :=
    withRhs_eq_ok.mpr ⟨u, hrun, rfl⟩
  rw [lhsList, bind_of_ok hraw]
  dsimp only
  rw [currentKind_bind]
  split
  · exact ⟨first, others, _, rfl, herase, hreads.setRhs⟩
  · obtain ⟨first', v, hfirst, hreadFirst, heraseFirst⟩ := resolveExpr_ok first { u with inRhs := s.inRhs }
    obtain ⟨others', w, hothers, hreadOthers, heraseOthers⟩ := mapM_resolveExpr_ok others v
    refine ⟨first', others', w, ?_, ?_, by simpa using (hreads.setRhs.trans hreadFirst).trans hreadOthers⟩
    · rw [bind_of_ok hfirst, bind_of_ok hothers]
      rfl
    · rw [List.map_cons, heraseFirst, heraseOthers, ← List.map_cons, herase]

/-! ### Declarations -/

/-- Where a token of one of the kinds comes first. -/
def StartsWith (kinds : List Kind) (ts : List Token) : Prop := ∃ t us, ts = t :: us ∧ t.kind ∈ kinds

theorem StartsWith.head {kinds : List Kind} {ts : List Token} (h : StartsWith kinds ts) :
    ∀ t ∈ ts.head?, t.kind ∈ kinds := by
  obtain ⟨t, us, rfl, ht⟩ := h
  rintro u ⟨⟩
  exact ht

theorem StartsWith.endsList {kinds : List Kind} {ts : List Token} (h : StartsWith kinds ts)
    (hkinds : .comma ∉ kinds) : EndsList ts :=
  fun t ht heq => hkinds (heq ▸ h.head t ht)

theorem StartsWith.endsExpr {kinds : List Kind} {ts : List Token} {inRhs : Bool} (h : StartsWith kinds ts)
    (hkinds : ∀ k ∈ kinds, BinaryOp.ofToken? (if inRhs && k = .assign then .eql else k) = none) :
    EndsExpr inRhs ts := by
  obtain ⟨t, us, rfl, ht⟩ := h
  exact hkinds t.kind ht

theorem StartsWith.type {kinds : List Kind} {ts us : List Token} {type : Option Expr}
    (h : StartsWith kinds us) (htype : IsTypeOption ts type) :
    StartsWith (.ident :: .lparen :: kinds) (ts ++ us) := by
  cases htype with
  | none =>
    obtain ⟨t, vs, rfl, ht⟩ := h
    exact ⟨t, vs, rfl, List.mem_cons_of_mem _ (List.mem_cons_of_mem _ ht)⟩
  | some htype =>
    cases htype with
    | ident hname =>
      obtain ⟨hkind, -, -⟩ := hname
      exact ⟨_, us, rfl, by simp [hkind]⟩
    | paren hl hinner hr => exact ⟨_, _, rfl, by simp [hl]⟩

theorem StartsWith.values {kinds : List Kind} {ts us : List Token} {values : List Expr}
    (h : StartsWith kinds us) (hvalues : IsValues ts values) : StartsWith (.assign :: kinds) (ts ++ us) := by
  cases hvalues with
  | none =>
    obtain ⟨t, vs, rfl, ht⟩ := h
    exact ⟨t, vs, rfl, List.mem_cons_of_mem _ ht⟩
  | some hassign hvalues => exact ⟨_, _, rfl, by simp [hassign]⟩

theorem initialValues_ok {s : State} {ts us : List Token} {values : List Expr} (hvalues : IsValues ts values)
    (hlevels : ∀ e ∈ values, e.levels ≤ maxDepth) (hahead : Ahead s ts us) (hdepth : s.depth = 0)
    (hend : StartsWith [.semi, .rparen] us) :
    ∃ values' s', initialValues s = .ok values' s' ∧ values'.map Expr.erase = values.map Expr.erase ∧
      Reads s ts s' := by
  rw [initialValues, currentKind_bind]
  cases hvalues with
  | none =>
    have hassign : s.token.kind ≠ .assign := by
      have hkind := hend.head s.token (by rw [← List.nil_append us, ← hahead.tokens]; rfl)
      intro heq
      rw [heq] at hkind
      exact absurd hkind (by decide)
    rw [if_neg hassign]
    exact ⟨[], s, rfl, rfl, .refl s⟩
  | @some t ts es hassign hvalues =>
    obtain ⟨hkind, hread, hnext⟩ := hahead.past (by rw [hassign]; decide)
    obtain ⟨es', s', hrun, herase, hreads⟩ := rhsList_ok (shallow_of_forall hvalues hlevels) hnext
      (hread.depth.trans hdepth) (hend.endsList (by decide)) (hend.endsExpr (by decide))
    rw [if_pos (hkind.trans hassign), next_bind]
    exact ⟨es', s', hrun, herase, hread.trans hreads⟩

theorem mapM_declare_ok (kind : ObjectKind) (decl : NodeId) (index : Nat) {names : List Ident} {s : State}
    {declared : List String} (hdeclares : s.names.Declares declared)
    (hfresh : (declared ++ (names.map Ident.name).filter (· ≠ Ident.blank)).Nodup) :
    ∃ names' s', names.mapM (declare kind decl index) s = .ok names' s' ∧ s'.findings = s.findings := by
  induction names generalizing s declared with
  | nil => exact ⟨[], s, rfl, rfl⟩
  | cons i names ih =>
    have hsplit : (i :: names).map Ident.name = [i.name] ++ names.map Ident.name := rfl
    rw [hsplit, List.filter_append, ← List.append_assoc] at hfresh
    have hnew : i.name = Ident.blank ∨ i.name ∉ declared := by
      by_cases hblank : i.name = Ident.blank
      · exact .inl hblank
      · have hfirst := (List.nodup_append.mp hfresh).1
        rw [List.filter_cons_of_pos (by simpa using hblank)] at hfirst
        exact .inr fun hmem => (List.nodup_append.mp hfirst).2.2 _ hmem _ List.mem_cons_self rfl
    have hnone : (s.names.declare i kind decl index).2.1 = none := hdeclares.declare.1.mpr hnew
    have hafter := hdeclares.declare.2 hnone
    obtain ⟨names', s', hrun, hfindings⟩ :=
      ih (s := { s with names := (s.names.declare i kind decl index).2.2 }) hafter hfresh
    refine ⟨(s.names.declare i kind decl index).1 :: names', s', ?_, hfindings⟩
    have hfirst : declare kind decl index i s =
        .ok (s.names.declare i kind decl index).1 { s with names := (s.names.declare i kind decl index).2.2 } := by
      rw [declare_apply, hnone]
      rfl
    rw [List.mapM_cons, bind_of_ok hfirst, bind_of_ok hrun]
    rfl

/-- What ends a spec before the tokens `us`: its terminator, or nothing before a right parenthesis. -/
inductive Closes : List Token → List Token → Prop where
  | semi {t us} (ht : t.kind = .semi) : Closes [t] us
  | rparen {t us} (ht : t.kind = .rparen) : Closes [] (t :: us)

theorem Closes.startsWith {cs us : List Token} (h : Closes cs us) : StartsWith [.semi, .rparen] (cs ++ us) := by
  cases h with
  | semi ht => exact ⟨_, us, rfl, by simp [ht]⟩
  | rparen ht => exact ⟨_, _, rfl, by simp [ht]⟩

theorem Closes.expectSemi_ok {s : State} {cs us : List Token} (h : Closes cs us) (hahead : Ahead s cs us) :
    ∃ s', expectSemi s = .ok () s' ∧ Reads s cs s' := by
  cases h with
  | semi ht =>
    refine ⟨s.next, expectSemi_of_semi (hahead.token_eq ▸ ht), hahead.next ?_⟩
    rw [ht]
    decide
  | @rparen t us ht =>
    have htoken : s.token = t := (List.cons.inj hahead.tokens).1
    exact ⟨s, expectSemi_of_close (.inl (htoken ▸ ht)), .refl s⟩

/-- Neither a name nor a parenthesis comes behind a spec up to its type. -/
theorem Closes.endsType {cs us vs : List Token} {values : List Expr} (h : Closes cs us) (hvalues : IsValues vs values) :
    ∀ t ∈ (vs ++ cs ++ us).head?, t.kind ≠ .ident ∧ t.kind ≠ .lparen := by
  intro t ht
  rw [List.append_assoc] at ht
  have hkind := (h.startsWith.values hvalues).head t ht
  constructor
  all_goals
    intro heq
    rw [heq] at hkind
    exact absurd hkind (by decide)

theorem map_erase_of_map_name {names names' : List Ident} (h : names'.map Ident.name = names.map Ident.name) :
    names'.map Ident.erase = names.map Ident.erase := by
  have herase : Ident.erase = (fun name => ⟨.dummy, .none, name, .unbound⟩) ∘ Ident.name := rfl
  rw [herase, ← List.map_map, ← List.map_map, h]

theorem shaped_erase {keyword : DeclKeyword} {index : Nat} {sp : Spec} :
    Entry.Shaped ⟨keyword, index, sp.erase⟩ ↔ Entry.Shaped ⟨keyword, index, sp⟩ := by
  simp [Entry.Shaped, Spec.erase]

/-- A spec like one that has its shape is not reported. -/
theorem shape_ok {keyword : DeclKeyword} {index : Nat} {sp sp' : Spec} (herase : sp'.erase = sp.erase)
    (hshaped : Entry.Shaped ⟨keyword, index, sp⟩) (pos : Pos) (s : State) :
    reportAny (shapeFault? keyword index pos sp'.names sp'.type sp'.values) s = .ok () s := by
  rw [← shaped_erase, ← herase, shaped_erase] at hshaped
  rw [(shapeFault?_eq_none_iff (x := ⟨keyword, index, sp'⟩)).mpr hshaped]
  rfl

/-- The names of an admissible spec are declared, each of them for the first time. -/
theorem declares_ok {keyword : DeclKeyword} {index : Nat} {s t : State} {us : List Token} {sp : Spec}
    {names : List Ident} {declared : List String} (hreads : Reads s us t) (hquiet : s.Quiet)
    (hdeclares : s.names.Declares declared) (hadmissible : Entry.Admissible declared ⟨keyword, index, sp⟩)
    (hnames : names.map Ident.name = sp.names.map Ident.name) :
    ∃ names' s', names.mapM (declare (objectKind keyword) t.nextId index) { t with nextId := t.nextId + 1 } =
        .ok names' s' ∧
      names'.map Ident.name = sp.names.map Ident.name ∧ Makes s us [⟨keyword, index, sp⟩] s' := by
  have hbefore := hdeclares.congr hreads.scopes
  have hfresh := hadmissible.fresh
  rw [Spec.declared, ← hnames] at hfresh
  obtain ⟨names', s', hrun, hfindings⟩ := mapM_declare_ok (objectKind keyword) t.nextId index
    (s := { t with nextId := t.nextId + 1 }) hbefore hfresh
  have hclean : s'.findings = [] := hfindings.trans (hreads.quiet hquiet).1
  obtain ⟨htokens, hquiet', hdepth, hinRhs, hbindings, hafter⟩ := mapM_declare_makes hclean hrun
  refine ⟨names', s', hrun, (map_name_of_forall₂ hbindings).trans hnames, hreads.tokens.trans (congrArg _ htokens.symm),
    fun hq => hquiet' (hreads.quiet hq), hdepth.trans hreads.depth, hinRhs.trans hreads.inRhs, fun hdeclared => ?_⟩
  obtain rfl := hdeclares.unique hdeclared
  have hknown := hafter _ hbefore
  rw [hnames] at hknown
  refine ⟨⟨hadmissible, trivial⟩, ?_⟩
  rw [declaredIn_cons, declaredIn, List.flatMap_nil, List.append_nil]
  exact hknown

/-- A spec of the grammar that is admissible is read and declared. -/
theorem spec_ok {keyword : DeclKeyword} {index : Nat} {s : State} {ts cs us : List Token} {sp : Spec}
    {declared : List String} (hspec : IsSpec ts sp) (hlevels : ∀ e ∈ sp.exprs, e.levels ≤ maxDepth)
    (hcloses : Closes cs us) (hahead : Ahead s (ts ++ cs) us) (hdepth : s.depth = 0)
    (hdeclares : s.names.Declares declared) (hadmissible : Entry.Admissible declared ⟨keyword, index, sp⟩) :
    ∃ sp' s', spec keyword index s = .ok sp' s' ∧ sp'.erase = sp.erase ∧
      Makes s (ts ++ cs) [⟨keyword, index, sp⟩] s' := by
  cases hspec with
  | @mk ns names ts type vs values id hnames htype hvalues =>
    have hend := hcloses.startsWith
    have hall : Ahead s (ns ++ (ts ++ (vs ++ cs))) us := by
      simpa only [List.append_assoc] using hahead
    obtain ⟨names₁, t, hrunNames, heqNames, hreadNames⟩ := nameList_ok hnames hall.append
      (by simpa only [List.append_assoc] using ((hend.values hvalues).type htype).endsList (by decide))
    have ht := hall.step hreadNames
    obtain ⟨type', u, hrunType, heraseType, hreadType⟩ :=
      type?_ok ⟨id, names, type, values⟩ htype
        (fun e he => hlevels e (List.mem_append_left _ (Option.mem_toList.mpr he))) ht.append
        (hreadNames.depth.trans hdepth) (hdeclares.congr hreadNames.scopes) hadmissible.type
        (hcloses.endsType hvalues)
    have hu := ht.step hreadType
    have hreads := hreadNames.trans hreadType
    obtain ⟨values', v, hrunValues, heraseValues, hreadValues⟩ := initialValues_ok hvalues
      (fun e he => hlevels e (List.mem_append_right _ he)) hu.append (hreads.depth.trans hdepth) hend
    obtain ⟨w, hrunSemi, hreadSemi⟩ := hcloses.expectSemi_ok (hu.step hreadValues)
    have hread : Reads s (ns ++ ts ++ vs ++ cs) w := (hreads.trans hreadValues).trans hreadSemi
    have herase : ∀ (id' : NodeId) {names' : List Ident}, names'.map Ident.name = names.map Ident.name →
        Spec.erase ⟨id', names', type', values'⟩ = Spec.erase ⟨id, names, type, values⟩ := by
      intro id' names' heq
      rw [Spec.erase, Spec.erase, map_erase_of_map_name heq, heraseType, heraseValues]
    have hshape := shape_ok (herase id heqNames) hadmissible.shaped s.token.pos w
    obtain ⟨names₂, x, hrunDeclare, heqNames₂, hmakes⟩ :=
      declares_ok hread hahead.quiet hdeclares hadmissible heqNames
    have hruns : SpecRuns keyword index s ⟨w.nextId, names₂, type', values'⟩ x :=
      .mk hrunNames hrunType hrunValues hrunSemi hshape hrunDeclare
    exact ⟨_, x, hruns.ok, herase _ heqNames₂, hmakes⟩

theorem Makes.freshId {s s' : State} {ts : List Token} {xs : List Entry} (h : Makes s ts xs s') :
    Makes s ts xs { s' with nextId := s'.nextId + 1 } := ⟨h.tokens, h.quiet, h.depth, h.inRhs, h.declares⟩

/-- The specs of a group up to its right parenthesis. -/
theorem specs_ok {keyword : DeclKeyword} {index n : Nat} {s : State} {ts cs us : List Token} {r : Token}
    {entries : List Spec} {declared : List String} (hspecs : Separated .semi IsSpec ts entries)
    (hlevels : ∀ e ∈ entries.flatMap Spec.exprs, e.levels ≤ maxDepth) (hr : r.kind = .rparen)
    (hcloses : Closes cs (r :: us)) (hahead : Ahead s (ts ++ cs) (r :: us)) (hdepth : s.depth = 0)
    (hdeclares : s.names.Declares declared)
    (hadmissible : AllAdmissible declared (entriesFrom keyword index entries)) (hn : ts.length ≤ n) :
    ∃ entries' s', specs keyword index n s = .ok entries' s' ∧
      entries'.map Spec.erase = entries.map Spec.erase ∧
      Makes s (ts ++ cs) (entriesFrom keyword index entries) s' := by
  induction hspecs generalizing index n s declared with
  | @one ts sp hspec =>
    obtain ⟨t, vs, rfl, ht⟩ := hspec.head
    obtain ⟨m, rfl⟩ : ∃ m, n = m + 1 := ⟨n - 1, by rw [List.length_cons] at hn; omega⟩
    have htoken : s.token.kind = .ident := hahead.head_eq ▸ ht
    rw [List.flatMap_singleton] at hlevels
    rw [entriesFrom_cons] at hadmissible
    obtain ⟨sp', u, hrun, herase, hmakes⟩ :=
      spec_ok hspec hlevels hcloses hahead hdepth hdeclares hadmissible.1
    have htokens : u.tokens = r :: us := hmakes.tokens_eq hahead.tokens
    have hend : u.token.kind = .rparen := (List.cons.inj htokens).1 ▸ hr
    have hruns : SpecsRuns keyword index (m + 1) s [sp'] u :=
      .more (by rw [htoken]; decide) hrun (.stop (.inl hend))
    exact ⟨[sp'], u, hruns.ok, by rw [List.map_singleton, herase, List.map_singleton], hmakes⟩
  | @more ts sp t ts' sps hspec ht hrest ih =>
    obtain ⟨t₁, vs, rfl, ht₁⟩ := hspec.head
    rw [List.length_append, List.length_cons] at hn
    obtain ⟨m, rfl⟩ : ∃ m, n = m + 1 := ⟨n - 1, by omega⟩
    have hm : ts'.length ≤ m := by
      rw [List.length_cons] at hn
      omega
    have hall : Ahead s ((t₁ :: vs ++ [t]) ++ (ts' ++ cs)) (r :: us) := by
      simpa only [List.append_assoc, List.cons_append, List.nil_append] using hahead
    have htoken : s.token.kind = .ident := hall.append.head_eq ▸ ht₁
    rw [List.flatMap_cons] at hlevels
    rw [entriesFrom_cons] at hadmissible ⊢
    obtain ⟨sp', u, hrun, herase, hmakes⟩ := spec_ok hspec
      (fun e he => hlevels e (List.mem_append_left _ he)) (.semi ht) hall.append hdepth hdeclares hadmissible.1
    have hafter := (hmakes.declares hdeclares).2
    rw [declaredIn_cons, declaredIn, List.flatMap_nil, List.append_nil] at hafter
    obtain ⟨sps', s', hrunRest, heraseRest, hmakesRest⟩ :=
      ih (fun e he => hlevels e (List.mem_append_right _ he)) (hall.made hmakes)
        (hmakes.depth.trans hdepth) hafter hadmissible.2 hm
    have hruns : SpecsRuns keyword index (m + 1) s (sp' :: sps') s' :=
      .more (by rw [htoken]; decide) hrun (.of_ok hrunRest)
    refine ⟨sp' :: sps', s', hruns.ok, by rw [List.map_cons, herase, heraseRest, List.map_cons], ?_⟩
    have hmakesAll := hmakes.trans hmakesRest
    simpa only [List.append_assoc, List.cons_append, List.nil_append] using hmakesAll

theorem group_ok {keyword : DeclKeyword} {n : Nat} {s : State} {ts us : List Token} {r : Token}
    {entries : List Spec} {declared : List String} (hgroup : IsGroup ts entries)
    (hlevels : ∀ e ∈ entries.flatMap Spec.exprs, e.levels ≤ maxDepth) (hr : r.kind = .rparen)
    (hahead : Ahead s ts (r :: us)) (hdepth : s.depth = 0) (hdeclares : s.names.Declares declared)
    (hadmissible : AllAdmissible declared (entriesFrom keyword 0 entries)) (hn : ts.length ≤ n) :
    ∃ entries' s', specs keyword 0 n s = .ok entries' s' ∧
      entries'.map Spec.erase = entries.map Spec.erase ∧ Makes s ts (entriesFrom keyword 0 entries) s' := by
  cases hgroup with
  | empty =>
    have hend : s.token.kind = .rparen := (List.cons.inj hahead.tokens).1 ▸ hr
    exact ⟨[], s, specs_of_end (.inl hend), rfl, (Reads.refl s).makes⟩
  | specs hspecs =>
    have hall : Ahead s (ts ++ []) (r :: us) := by rwa [List.append_nil]
    have hresult := specs_ok hspecs hlevels hr (.rparen hr) hall hdepth hdeclares hadmissible hn
    rwa [List.append_nil] at hresult
  | @closed ts specs t hspecs ht =>
    rw [List.length_append] at hn
    have hm : ts.length ≤ n := by omega
    exact specs_ok hspecs hlevels hr (.semi ht) hahead hdepth hdeclares hadmissible hm

section
variable {keyword : DeclKeyword} {s : State} {ts us : List Token} {k t : Token} {declared : List String}

private theorem keyword_ok (hk : DeclKeyword.ofToken? k.kind = some keyword) (hahead : Ahead s (k :: ts) us) :
    expect keyword.token s = .ok k.pos s.next ∧ Reads s [k] s.next ∧ Ahead s.next ts us := by
  obtain rfl : s.token = k := hahead.token_eq
  have hkind := DeclKeyword.token_of_ofToken? hk
  have hread := hahead.next (by rw [← hkind]; cases keyword <;> decide)
  exact ⟨expect_of_kind hkind.symm, hread, hahead.tail hread⟩

private theorem single_ok {sp : Spec} (id : NodeId) (hk : DeclKeyword.ofToken? k.kind = some keyword)
    (hspec : IsSpec ts sp) (hlevels : ∀ e ∈ sp.exprs, e.levels ≤ maxDepth) (ht : t.kind = .semi)
    (hahead : Ahead s (k :: (ts ++ [t])) us) (hdepth : s.depth = 0) (hdeclares : s.names.Declares declared)
    (hadmissible : Entry.Admissible declared ⟨keyword, 0, sp⟩) :
    ∃ d' s', decl keyword s = .ok d' s' ∧ d'.erase = (Decl.specs id keyword k.pos .none [sp] .none).erase ∧
      Makes s (k :: (ts ++ [t])) [⟨keyword, 0, sp⟩] s' := by
  obtain ⟨hkeyword, hread, hnext⟩ := keyword_ok hk hahead
  obtain ⟨t₁, vs, rfl, ht₁⟩ := hspec.head
  have hident : s.next.token.kind = .ident := hnext.head_eq ▸ ht₁
  obtain ⟨sp', u, hrun, herase, hmakes⟩ := spec_ok hspec hlevels (.semi ht) hnext
    (hread.depth.trans hdepth) (hdeclares.congr hread.scopes) hadmissible
  have hruns : DeclRuns keyword s (.specs u.nextId keyword k.pos .none [sp'] .none) { u with nextId := u.nextId + 1 } :=
    .single hkeyword (by rw [hident]; decide) hrun
  refine ⟨_, _, hruns.ok, ?_, (hread.makes.trans hmakes).freshId⟩
  rw [Decl.erase, Decl.erase, List.map_singleton, herase, List.map_singleton]

private theorem parens_ok {entries : List Spec} {l r : Token} (id : NodeId)
    (hk : DeclKeyword.ofToken? k.kind = some keyword) (hl : l.kind = .lparen) (hgroup : IsGroup ts entries)
    (hr : r.kind = .rparen) (hlevels : ∀ e ∈ entries.flatMap Spec.exprs, e.levels ≤ maxDepth) (ht : t.kind = .semi)
    (hahead : Ahead s (k :: l :: (ts ++ [r, t])) us) (hdepth : s.depth = 0) (hdeclares : s.names.Declares declared)
    (hadmissible : AllAdmissible declared (entriesFrom keyword 0 entries)) :
    ∃ d' s', decl keyword s = .ok d' s' ∧ d'.erase = (Decl.specs id keyword k.pos l.pos entries r.pos).erase ∧
      Makes s (k :: l :: (ts ++ [r, t])) (entriesFrom keyword 0 entries) s' := by
  obtain ⟨hkeyword, hread, hopen⟩ := keyword_ok hk hahead
  obtain rfl : s.next.token = l := hopen.token_eq
  have hreadOpen := hopen.next (by rw [hl]; decide)
  have hinside : Ahead s.next.next (ts ++ [r, t]) us := hopen.tail hreadOpen
  have hfuel : ts.length ≤ s.next.next.rest.length := by
    have hlength := hinside.length_eq
    simp only [List.length_append, List.length_cons, List.length_nil] at hlength
    omega
  have hreads := hread.trans hreadOpen
  obtain ⟨entries', u, hrun, herase, hmakes⟩ := group_ok hgroup hlevels hr hinside.append
    (hreads.depth.trans hdepth) (hdeclares.congr hreads.scopes) hadmissible hfuel
  have hclose : Ahead u [r, t] us := hinside.made hmakes
  obtain rfl : u.token = r := hclose.token_eq
  have hreadClose := hclose.next (by rw [hr]; decide)
  have hsemi : Ahead u.next [t] us := hclose.tail hreadClose
  obtain rfl : u.next.token = t := hsemi.token_eq
  have hreadSemi := hsemi.next (by rw [ht]; decide)
  have hruns : DeclRuns keyword s (.specs u.next.next.nextId keyword k.pos s.next.token.pos entries' u.token.pos)
      { u.next.next with nextId := u.next.next.nextId + 1 } :=
    .group hkeyword hl (expect_of_kind hl) hrun (expect_of_kind hr) (expectSemi_of_semi ht)
  refine ⟨_, _, hruns.ok, by rw [Decl.erase, Decl.erase, herase], ?_⟩
  have hmakesAll := ((hreads.makes.trans hmakes).trans (hreadClose.trans hreadSemi).makes).freshId
  simpa using hmakesAll

theorem decl_ok {d : Decl} (hdecl : IsDecl ts d) (hkeyword : DeclKeyword.ofToken? s.token.kind = some keyword)
    (hlevels : ∀ e ∈ d.exprs, e.levels ≤ maxDepth) (ht : t.kind = .semi) (hahead : Ahead s (ts ++ [t]) us)
    (hdepth : s.depth = 0) (hdeclares : s.names.Declares declared)
    (hadmissible : AllAdmissible declared d.entries) :
    ∃ d' s', decl keyword s = .ok d' s' ∧ d'.erase = d.erase ∧ Makes s (ts ++ [t]) d.entries s' := by
  cases hdecl with
  | @spec k keyword' ts sp id hk hspec =>
    obtain rfl : s.token = k := hahead.head_eq
    obtain rfl : keyword = keyword' := Option.some.inj (hkeyword.symm.trans hk)
    rw [Decl.exprs, List.flatMap_singleton] at hlevels
    exact single_ok id hk hspec hlevels ht hahead hdepth hdeclares hadmissible.1
  | @group k keyword' l ts specs r id hk hl hgroup hr =>
    have hall : Ahead s (k :: l :: (ts ++ [r, t])) us := by simpa using hahead
    obtain rfl : s.token = k := hall.token_eq
    obtain rfl : keyword = keyword' := Option.some.inj (hkeyword.symm.trans hk)
    have hdone := parens_ok id hk hl hgroup hr hlevels ht hall hdepth hdeclares hadmissible
    simpa [Decl.entries] using hdone

end

/-! ### Statements -/

theorem IsExpr.startsOperand {phrase : Phrase} {ts : List Token} {e : Expr} (h : IsExpr phrase ts e) :
    ∃ t us, ts = t :: us ∧ startsOperand t.kind = true := by
  induction h with
  | ident hname =>
    obtain ⟨hkind, -, -⟩ := hname
    exact ⟨_, [], rfl, by rw [hkind]; rfl⟩
  | @literal t kind id hkind =>
    refine ⟨t, [], rfl, ?_⟩
    rw [← LiteralKind.token_of_ofToken? hkind]
    cases kind <;> rfl
  | unary hop hoperand ih => exact ⟨_, _, rfl, by simp [Parse.startsOperand, hop]⟩
  | paren hl hinner hr ih => exact ⟨_, _, rfl, by rw [hl]; rfl⟩
  | first hfirst ih => exact ih
  | link hleft hop hoperand ihleft ihoperand =>
    obtain ⟨t, us, rfl, ht⟩ := ihleft
    exact ⟨t, _, rfl, ht⟩

theorem IsSimple.startsOperand {ts : List Token} {st : Stmt} (h : IsSimple ts st) :
    ∃ t us, ts = t :: us ∧ startsOperand t.kind = true := by
  have happend : ∀ {ts us : List Token}, (∃ t vs, ts = t :: vs ∧ Parse.startsOperand t.kind = true) →
      ∃ t vs, ts ++ us = t :: vs ∧ Parse.startsOperand t.kind = true := by
    rintro ts us ⟨t, vs, rfl, ht⟩
    exact ⟨t, vs ++ us, rfl, ht⟩
  cases h with
  | assign hleft hop hright =>
    cases hleft with
    | one hexpr => exact happend (IsExpr.startsOperand hexpr)
    | more hexpr hsep hrest => exact happend (happend (IsExpr.startsOperand hexpr))
  | expr hexpr => exact IsExpr.startsOperand hexpr
  | inc hexpr ht => exact happend (IsExpr.startsOperand hexpr)
  | dec hexpr ht => exact happend (IsExpr.startsOperand hexpr)

theorem startsWith_assignOp {t : Token} {op : AssignOp} (us : List Token)
    (hop : AssignOp.ofToken? t.kind = some op) : EndsList (t :: us) ∧ EndsExpr false (t :: us) := by
  have hkind := AssignOp.token_of_ofToken? hop
  have hstart : StartsWith [op.token] (t :: us) := ⟨t, us, rfl, by rw [hkind]; exact List.mem_cons_self⟩
  constructor
  · apply hstart.endsList
    cases op <;> decide
  · apply hstart.endsExpr
    cases op <;> decide

/-- One expression as the left-hand side, which is all that stands before the tokens `us`. -/
private theorem lone_ok {s : State} {ts us : List Token} {e : Expr} {kinds : List Kind}
    (hexpr : IsShallow ts e) (hahead : Ahead s ts us) (hdepth : s.depth = 0) (hstart : StartsWith kinds us)
    (hlist : .comma ∉ kinds)
    (hends : ∀ k ∈ kinds, BinaryOp.ofToken? (if false && k = .assign then .eql else k) = none) :
    ∃ e' s', lhsList s = .ok (e', []) s' ∧ e'.erase = e.erase ∧ Reads s ts s' := by
  obtain ⟨first, others, s', hrun, herase, hreads⟩ :=
    lhsList_ok (.one hexpr) hahead hdepth (hstart.endsList hlist) (hstart.endsExpr hends)
  rw [List.map_cons, List.map_singleton, List.cons.injEq, List.map_eq_nil_iff] at herase
  obtain ⟨herase, rfl⟩ := herase
  exact ⟨first, s', hrun, herase, hreads⟩

private theorem incDec_ok {s : State} {ts us : List Token} {t : Token} {e : Expr} {id : NodeId}
    (hexpr : IsShallow ts e) (hahead : Ahead s (ts ++ [t]) us) (hdepth : s.depth = 0) (increment : Bool)
    (ht : t.kind = if increment then .inc else .dec) :
    ∃ made s', simple s = .ok made s' ∧
      (∀ id', (made id').erase = (Stmt.incDec id e t.pos increment).erase) ∧ Reads s (ts ++ [t]) s' := by
  have hstart : StartsWith [.inc, .dec] ([t] ++ us) := by
    refine ⟨t, us, rfl, ?_⟩
    rw [ht]
    cases increment <;> decide
  obtain ⟨e', u, hrun, herase, hreads⟩ := lone_ok hexpr hahead.append hdepth hstart (by decide) (by decide)
  have hu := hahead.step hreads
  obtain rfl := hu.token_eq
  have hread := hu.next (by rw [ht]; cases increment <;> decide)
  have hruns : SimpleRuns s (fun id' => .incDec id' e' u.token.pos increment) u.next := .incDec hrun ht rfl
  exact ⟨_, u.next, hruns.ok, fun id' => by rw [Stmt.erase, Stmt.erase, herase], hreads.trans hread⟩

theorem simple_ok {s : State} {ts us : List Token} {st : Stmt} (hsimple : IsSimple ts st)
    (hlevels : ∀ e ∈ st.exprs, e.levels ≤ maxDepth) (hahead : Ahead s ts us) (hdepth : s.depth = 0)
    (hend : StartsWith [.semi] us) :
    ∃ made s', simple s = .ok made s' ∧ (∀ id, (made id).erase = st.erase) ∧ Reads s ts s' := by
  cases hsimple with
  | @assign ls left t op rs right id hleft hop hright =>
    obtain ⟨hlist, hends⟩ := startsWith_assignOp (rs ++ us) hop
    obtain ⟨first, others, u, hrun, herase, hreads⟩ :=
      lhsList_ok (shallow_of_forall hleft fun e he => hlevels e (List.mem_append_left _ he)) hahead.append
        hdepth hlist hends
    have hu := hahead.step hreads
    obtain rfl := hu.token_eq
    have hread : Reads u [u.token] u.next := by
      apply hu.next
      rw [← AssignOp.token_of_ofToken? hop]
      cases op <;> decide
    have hnext : Ahead u.next rs us := hu.tail hread
    obtain ⟨right', v, hrun', herase', hreads'⟩ :=
      rhsList_ok (shallow_of_forall hright fun e he => hlevels e (List.mem_append_right _ he)) hnext
        ((hreads.trans hread).depth.trans hdepth) (hend.endsList (by decide)) (hend.endsExpr (by decide))
    refine ⟨_, v, (SimpleRuns.assign hrun hop hrun').ok, fun id => ?_, hreads.trans (hread.trans hreads')⟩
    rw [Stmt.erase, Stmt.erase, herase, herase']
  | @expr ts e id hexpr =>
    obtain ⟨e', u, hrun, herase, hreads⟩ := lone_ok ⟨hexpr, hlevels e List.mem_cons_self⟩ hahead hdepth hend
      (by decide) (by decide)
    have hkind : u.token.kind = .semi := by
      obtain ⟨t, vs, rfl, ht⟩ := hend
      exact (List.cons.inj (hahead.after hreads)).1 ▸ List.mem_singleton.mp ht
    have hruns : SimpleRuns s (fun id => .expr id e') u :=
      .other hrun (by rw [hkind]; rfl) (by rw [hkind]; decide) rfl
    exact ⟨_, u, hruns.ok, fun id => by rw [Stmt.erase, Stmt.erase, herase], hreads⟩
  | @inc ts e t id hexpr ht => exact incDec_ok ⟨hexpr, hlevels e List.mem_cons_self⟩ hahead hdepth true ht
  | @dec ts e t id hexpr ht => exact incDec_ok ⟨hexpr, hlevels e List.mem_cons_self⟩ hahead hdepth false ht

/-- A statement of the grammar whose declarations are admissible is read. -/
theorem stmt_ok {s : State} {ts us : List Token} {st : Stmt} {declared : List String} (hstmt : IsStmt ts st)
    (hlevels : ∀ e ∈ st.exprs, e.levels ≤ maxDepth) (hahead : Ahead s ts us) (hdepth : s.depth = 0)
    (hdeclares : s.names.Declares declared) (hadmissible : AllAdmissible declared st.entries) :
    ∃ st' s', stmt s = .ok st' s' ∧ st'.erase = st.erase ∧ Makes s ts st.entries s' := by
  cases hstmt with
  | @empty t id ht =>
    obtain rfl := hahead.token_eq
    have hread := hahead.next (by rw [ht]; decide)
    exact ⟨_, _, (StmtRuns.semi ht).ok, rfl, hread.makes.freshId⟩
  | @simple ts st t hsimple ht =>
    have hentries : st.entries = [] := by cases hsimple <;> rfl
    obtain ⟨t₁, vs, rfl, hstart⟩ := IsSimple.startsOperand hsimple
    have hoperand : startsOperand s.token.kind = true := by
      rw [hahead.head_eq]
      exact hstart
    obtain ⟨made, u, hrun, herase, hreads⟩ := simple_ok hsimple hlevels hahead.append hdepth
      ⟨t, us, rfl, List.mem_singleton.mpr ht⟩
    have hu := hahead.step hreads
    obtain rfl := hu.token_eq
    have hall := hreads.trans (hu.next (by rw [ht]; decide))
    refine ⟨_, _, (StmtRuns.operand hoperand hrun (expectSemi_of_semi ht)).ok, herase _, ?_⟩
    rw [hentries]
    exact hall.makes.freshId
  | @decl ts d t id hdecl ht =>
    obtain ⟨keyword, hkeyword⟩ : ∃ keyword, DeclKeyword.ofToken? s.token.kind = some keyword := by
      cases hdecl with
      | @spec k keyword ts sp id hk hspec =>
        refine ⟨keyword, ?_⟩
        rw [hahead.head_eq, hk]
      | @group k keyword l ts specs r id hk hl hgroup hr =>
        refine ⟨keyword, ?_⟩
        rw [hahead.append.head_eq, hk]
    obtain ⟨d', u, hrun, herase, hmakes⟩ :=
      decl_ok hdecl hkeyword hlevels ht hahead hdepth hdeclares hadmissible
    refine ⟨_, _, (StmtRuns.keyword hkeyword hrun).ok, ?_, hmakes.freshId⟩
    rw [Stmt.erase, Stmt.erase, herase]

/-- The statements of a file are read up to the end token. -/
theorem stmts_ok {n : Nat} {s : State} {ts us : List Token} {made : List Stmt} {declared : List String}
    (hfile : IsFile ts made) (hlevels : ∀ e ∈ made.flatMap Stmt.exprs, e.levels ≤ maxDepth)
    (hahead : Ahead s ts us) (hend : StartsWith [.eof] us) (hdepth : s.depth = 0)
    (hdeclares : s.names.Declares declared)
    (hadmissible : AllAdmissible declared (made.flatMap Stmt.entries)) (hn : ts.length ≤ n) :
    ∃ made' s', stmts n s = .ok () s' ∧ s'.stmts = s.stmts ++ made' ∧
      made'.map Stmt.erase = made.map Stmt.erase ∧ s'.findings = [] := by
  induction hfile generalizing n s declared with
  | nil =>
    refine ⟨[], s, ?_, (List.append_nil _).symm, rfl, hahead.quiet.1⟩
    have heof : s.token.kind = .eof := by
      obtain ⟨t, vs, rfl, ht⟩ := hend
      exact (List.cons.inj hahead.tokens).1 ▸ List.mem_singleton.mp ht
    cases n with
    | zero => rfl
    | succ n =>
      rw [stmts, currentKind_bind, if_pos heof]
      rfl
  | @cons ts st ts' made hstmt hrest ih =>
    have hlength := List.length_pos_iff.mpr hstmt.ne_nil
    rw [List.length_append] at hn
    obtain ⟨m, rfl⟩ : ∃ m, n = m + 1 := ⟨n - 1, by omega⟩
    have hm : ts'.length ≤ m := by omega
    rw [List.flatMap_cons] at hlevels hadmissible
    obtain ⟨hfirst, hothers⟩ := allAdmissible_append.mp hadmissible
    obtain ⟨st', u, hrun, herase, hmakes⟩ := stmt_ok hstmt
      (fun e he => hlevels e (List.mem_append_left _ he)) hahead.append hdepth hdeclares hfirst
    have hu := hahead.made hmakes
    have hstmts : u.stmts = s.stmts := (Extends.of_ok .stmt hrun).stmts
    obtain ⟨made', s', hrunRest, hmade, heraseRest, hclean⟩ :=
      ih (s := { u with stmts := u.stmts ++ [st'] }) (fun e he => hlevels e (List.mem_append_right _ he))
        ⟨hu.terminated, hu.quiet, hu.tokens⟩ (hmakes.depth.trans hdepth) (hmakes.declares hdeclares).2 hothers hm
    refine ⟨st' :: made', s', ?_, ?_, by rw [List.map_cons, herase, heraseRest, List.map_cons], hclean⟩
    · have hgo : s.token.kind ≠ .eof := by
        obtain ⟨t, vs, rfl, -⟩ := hend
        exact hahead.token_ne_eof (List.append_ne_nil_of_left_ne_nil hstmt.ne_nil _) (List.cons_ne_nil t vs)
      rw [stmts, currentKind_bind, if_neg hgo, bind_of_ok hrun, modify_bind, hrunRest]
    · rw [hmade]
      show u.stmts ++ [st'] ++ made' = _
      rw [hstmts, List.append_assoc]
      rfl

end RoseLang.Parse
