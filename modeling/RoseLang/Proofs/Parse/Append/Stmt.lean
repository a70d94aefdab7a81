import RoseLang.Proofs.Parse.Append.Expr
import RoseLang.Proofs.Parse.Complete.Stmt
import RoseLang.Proofs.Parse.Layout.Stmt

/-!
# Statements inside a longer text

The rest of the parsers. A statement ends with its terminator, after which the parse alone may be at its end
token, so that it does not say any more what the longer text goes on with; what is still done then, to number and
to declare, reads no token. From statements it goes to all statements of a text: where these have been read, the
longer parse is at what stands after the text.
-/

namespace RoseLang

open Parse

/-! ### Trees -/

/-- The same spec. Its names are as far from each other as the texts are, and so are the numbers of the specs. -/
structure Spec.Joined (m : Seam) (s s' : Spec) : Prop where
  id : m.Number s.id s'.id
  names : List.Forall₂ m.Name s.names s'.names
  type : Option.Rel Expr.Similar s.type s'.type
  values : List.Forall₂ Expr.Similar s.values s'.values

structure Entry.Joined (m : Seam) (x x' : Entry) : Prop where
  keyword : x'.keyword = x.keyword
  index : x'.index = x.index
  spec : x.spec.Joined m x'.spec

structure Decl.Joined (m : Seam) (d d' : Decl) : Prop where
  erase : d'.erase = d.erase
  entries : List.Forall₂ (Entry.Joined m) d.entries d'.entries

structure Stmt.Joined (m : Seam) (st st' : Stmt) : Prop where
  erase : st'.erase = st.erase
  entries : List.Forall₂ (Entry.Joined m) st.entries st'.entries

variable {m : Seam}

theorem map_erase_eq {es es' : List Expr} (h : List.Forall₂ Expr.Similar es es') :
    es'.map Expr.erase = es.map Expr.erase :=
  (map_eq_map_of_forall₂ h fun he => he.symm).symm

theorem Spec.Joined.erase {s s' : Spec} (h : s.Joined m s') : s'.erase = s.erase := by
  have hnames : s'.names.map Ident.name = s.names.map Ident.name :=
    (map_eq_map_of_forall₂ h.names fun hi => hi.name.symm).symm
  have htype : s'.type.map Expr.erase = s.type.map Expr.erase := by
    have hrel := h.type
    generalize s.type = type, s'.type = type' at hrel ⊢
    cases hrel with
    | none => rfl
    | some he => exact congrArg some he
  rw [Spec.erase, Spec.erase, map_erase_of_map_name hnames, htype, map_erase_eq h.values]

theorem Entry.Joined.shaped_iff {x x' : Entry} (h : x.Joined m x') : x'.Shaped ↔ x.Shaped := by
  show Entry.Shaped ⟨x'.keyword, x'.index, x'.spec⟩ ↔ Entry.Shaped ⟨x.keyword, x.index, x.spec⟩
  rw [← shaped_erase, h.spec.erase, h.keyword, h.index, shaped_erase]

theorem forall₂_entriesFrom {keyword : DeclKeyword} {index : Nat} {entries entries' : List Spec}
    (h : List.Forall₂ (Spec.Joined m) entries entries') :
    List.Forall₂ (Entry.Joined m) (entriesFrom keyword index entries) (entriesFrom keyword index entries') := by
  induction h generalizing index with
  | nil => exact .nil
  | cons hs hrest ih => exact .cons ⟨rfl, rfl, hs⟩ ih

theorem Decl.Joined.specs {id id' : NodeId} {keyword : DeclKeyword}
    {keywordPos keywordPos' lparen lparen' rparen rparen' : Pos} {entries entries' : List Spec}
    (hlparen : lparen'.isValid = lparen.isValid) (h : List.Forall₂ (Spec.Joined m) entries entries') :
    (Decl.specs id keyword keywordPos lparen entries rparen).Joined m
      (.specs id' keyword keywordPos' lparen' entries' rparen') where
  erase := by
    have hentries : entries'.map Spec.erase = entries.map Spec.erase :=
      (map_eq_map_of_forall₂ h fun hs => hs.erase.symm).symm
    rw [Decl.erase, Decl.erase, hentries, hlparen]
  entries := forall₂_entriesFrom h

theorem Stmt.Joined.plain {st st' : Stmt} (herase : st'.erase = st.erase) (h : st.entries = [])
    (h' : st'.entries = []) : st.Joined m st' :=
  ⟨herase, by rw [h, h']; exact .nil⟩

namespace Parse

/-- The statements are the same, whatever their numbers will be. -/
def Seam.Made (m : Seam) (f f' : NodeId → Stmt) : Prop := ∀ id, (f id).Joined m (f' (id + m.ids))

instance : Total (Spec.Joined m) where
  exists_rel s := by
    obtain ⟨names, hnames⟩ := Total.exists_rel (V := List.Forall₂ m.Name) s.names
    obtain ⟨type, htype⟩ := Total.exists_rel (V := Option.Rel Expr.Similar) s.type
    obtain ⟨values, hvalues⟩ := Total.exists_rel (V := List.Forall₂ Expr.Similar) s.values
    exact ⟨⟨s.id + m.ids, names, type, values⟩, rfl, hnames, htype, hvalues⟩

instance : Total (Decl.Joined m) where
  exists_rel d := by
    cases d with
    | bad id start stop => exact ⟨.bad id start stop, rfl, .nil⟩
    | specs id keyword keywordPos lparen entries rparen =>
      obtain ⟨entries', hentries⟩ := Total.exists_rel (V := List.Forall₂ (Spec.Joined m)) entries
      exact ⟨.specs id keyword keywordPos lparen entries' rparen, .specs rfl hentries⟩

instance : Total (Stmt.Joined m) where
  exists_rel st := by
    cases st with
    | decl id d =>
      obtain ⟨d', hd⟩ := Total.exists_rel (V := Decl.Joined m) d
      exact ⟨.decl id d', congrArg (Stmt.decl _) hd.erase, hd.entries⟩
    | _ => exact ⟨_, .plain rfl rfl rfl⟩

instance : Total m.Made where
  exists_rel f := by
    choose g hg using fun n => Total.exists_rel (V := Stmt.Joined m) (f (n - m.ids))
    refine ⟨g, fun id => ?_⟩
    have hid := hg (id + m.ids)
    rwa [Nat.add_sub_cancel] at hid

namespace Mimics

variable {b : Bool}

/-! ### Declarations -/

theorem nameList : Mimics m true true (List.Forall₂ m.Name) nameList nameList := by
  rw [nameList_eq]
  exact .bind (.commaList .ident .ident) fun _ _ hlist => .pure hlist

/-- What is declared again in the longer text only is a clash. -/
theorem declare (kind : ObjectKind) (decl decl' : NodeId) (index : Nat) {i i' : Ident} (hi : m.Name i i') :
    Mimics m b b m.Name (declare kind decl index i) (declare kind decl' index i') where
  back := Built.back (.declare kind decl index i)
  run {s t s' a} hrun hlive hs := by
    obtain ⟨binding, hname⟩ : ∃ binding, (s.names.declare i kind decl index).1 = { i with binding } :=
      s.names.ident_declare i
    obtain ⟨binding', hname'⟩ : ∃ binding, (s'.names.declare i' kind decl' index).1 = { i' with binding } :=
      s'.names.ident_declare i'
    have hvalue : m.Name (s.names.declare i kind decl index).1 (s'.names.declare i' kind decl' index).1 := by
      rw [hname, hname']
      exact ⟨hi.name, hi.pos⟩
    have hjoined : m.Joined { s with names := (s.names.declare i kind decl index).2.2 }
        { s' with names := (s'.names.declare i' kind decl' index).2.2 } := { hs with }
    rw [declare_apply] at hrun ⊢
    refine (Mimics.bind (.reportAny fun _ f hf => ?_) fun _ _ _ => .pure hvalue).run hrun hlive hjoined
    obtain ⟨r, -, rfl⟩ := Option.map_eq_some_iff.mp hf
    trivial

theorem initialValues : Mimics m true true (List.Forall₂ Expr.Similar) initialValues initialValues := by
  refine .bind .currentKind ?_
  rintro kind _ rfl
  exact .ite (fun _ => .bind .next fun _ _ _ => .rhsList) fun _ => .pure .nil

/-- After the terminator the text may be at its end. -/
theorem expectSemi : Mimics m true b Eq expectSemi expectSemi where
  back {s t a} hrun hs := by
    obtain ⟨hterminated, hback⟩ := Built.back (b := false) .expectSemi hrun hs
    refine ⟨hterminated, fun hlive => ⟨(hback ⟨hlive.1, by simp⟩).1, fun _ heof => ?_⟩⟩
    rcases expectSemi_clean hlive.1 hrun with ⟨hkind, -⟩ | ⟨hkind | hkind, -⟩
    all_goals
      rw [heof] at hkind
      cases hkind
  run {s t s' a} hrun hlive hs := by
    rcases expectSemi_clean hlive.1 hrun with ⟨hkind, rfl⟩ | ⟨hkind, hsame⟩
    · have hne : s.token.kind ≠ .eof := by
        rw [hkind]
        decide
      exact ⟨(), s'.next, expectSemi_of_semi ((hs.token hne).kind.trans hkind), rfl, hs.next hne⟩
    · have hne : s.token.kind ≠ .eof := by
        rcases hkind with hkind | hkind
        all_goals
          rw [hkind]
          decide
      have hkind' := hkind
      rw [← (hs.token hne).kind] at hkind'
      exact ⟨(), s', expectSemi_of_close hkind', rfl, hsame ▸ hs⟩

theorem spec (keyword : DeclKeyword) (index : Nat) :
    Mimics m true b (Spec.Joined m) (spec keyword index) (spec keyword index) := by
  refine .bind .currentPos fun pos pos' _ => .bind .nameList fun names names' hnames =>
    .bind .type? fun type type' htype => .bind .initialValues fun values values' hvalues =>
      .bind .expectSemi fun _ _ _ => .bind (.reportAny fun hnone f hf => ?_) fun _ _ _ =>
        .bind .freshId fun id id' hid => .bind (.mapM hnames fun _ _ hi => .declare _ _ _ _ hi)
          fun _ _ hnames => .pure ⟨hid, hnames, htype, hvalues⟩
  have hjoined : Entry.Joined m ⟨keyword, index, ⟨0, names, type, values⟩⟩
      ⟨keyword, index, ⟨0 + m.ids, names', type', values'⟩⟩ := ⟨rfl, rfl, rfl, hnames, htype, hvalues⟩
  have hshaped := hjoined.shaped_iff.mpr (shapeFault?_eq_none_iff.mp hnone)
  rw [shapeFault?_eq_none_iff.mpr hshaped] at hf
  cases hf

theorem specs (keyword : DeclKeyword) (index n : Nat) :
    Mimics m true true (List.Forall₂ (Spec.Joined m)) (specs keyword index n) (specs keyword index n) := by
  induction n generalizing index with
  | zero => exact .pure .nil
  | succ n ih =>
    refine .bind .currentKind ?_
    rintro kind _ rfl
    split
    · exact .pure .nil
    · exact .pure .nil
    · exact .bind (.spec keyword index) fun _ _ hfirst => .bind (ih _) fun _ _ hothers =>
        .pure (.cons hfirst hothers)

theorem decl (keyword : DeclKeyword) : Mimics m true b (Decl.Joined m) (decl keyword) (decl keyword) := by
  refine .bind (.expect _) fun _ _ _ => .bind .currentKind ?_
  rintro kind _ rfl
  refine .ite (fun _ => .bind (.expect _) fun lparen lparen' hlparen =>
    .bounded specs_enough (.specs keyword 0) fun _ _ hentries => .bind (.expect _) fun _ _ _ =>
      .bind .expectSemi fun _ _ _ => .bind .freshId fun _ _ _ => .pure (.specs ?_ hentries))
    fun _ => .bind (.spec keyword 0) fun _ _ hentry => .bind .freshId fun _ _ _ =>
      .pure (.specs rfl (.cons hentry .nil))
  rw [hlparen, Pos.isValid_moved]

/-! ### Statements -/

theorem simple : Mimics m true true m.Made simple simple := by
  refine .bind .lhsList ?_
  rintro ⟨first, others⟩ ⟨first', others'⟩ hlist
  obtain ⟨hfirst, hothers⟩ := List.forall₂_cons.mp hlist
  refine .bind .currentToken fun t t' ht => ?_
  rw [ht.kind]
  cases AssignOp.ofToken? t.kind with
  | some op =>
    refine .bind .next fun _ _ _ => .bind .rhsList fun _ _ hright => .pure fun id => .plain ?_ rfl rfl
    show Stmt.assign _ _ _ _ _ = Stmt.assign _ _ _ _ _
    rw [map_erase_eq hlist, map_erase_eq hright]
  | none =>
    have hexpr : m.Made (fun id => .expr id first) fun id => .expr id first' :=
      fun id => .plain (congrArg (Stmt.expr .dummy) hfirst) rfl rfl
    have hincDec : ∀ increment : Bool, m.Made (fun id => .incDec id first t.pos increment)
        fun id => .incDec id first' t'.pos increment :=
      fun increment id => .plain (congrArg (Stmt.incDec .dummy · .none increment) hfirst) rfl rfl
    dsimp only
    refine .bind (.reportAny fun hnone f hf => ?_) fun _ _ _ => ?_
    · rw [← isEmpty_eq hothers] at hf
      split at hf
      · cases hf
      · next hsome => rw [if_neg hsome] at hnone; cases hnone
    · split
      · exact .bind .next fun _ _ _ => .pure (hincDec true)
      · exact .bind .next fun _ _ _ => .pure (hincDec false)
      · exact .pure hexpr

theorem stmt : Mimics m true false (Stmt.Joined m) stmt stmt where
  back {s t st} hrun hs := by
    obtain ⟨hterminated, hback⟩ := Built.back (b := false) .stmt hrun hs
    refine ⟨hterminated, fun hlive => ⟨(hback hlive).1, fun _ heof => ?_⟩⟩
    cases StmtRuns.of_ok hrun with
    | keyword hstart | semi hstart | operand hstart =>
      rw [heof] at hstart
      cases hstart
    | @other u span hkeyword hoperand hsemi hskipped =>
      have hu : u.findings = [] := hlive.1
      exact not_clean_of_skipped (fun _ _ => not_clean_of_expected) hskipped hu
  run {s t s' st} hrun hlive hs := by
    cases StmtRuns.of_ok hrun with
    | @keyword u keyword d hkeyword hdecl =>
      have hkind := (hs.token (fun heof => by rw [heof] at hkeyword; cases hkeyword)).kind
      rw [stmt_of_keyword hkeyword] at hrun
      rw [stmt_of_keyword (hkind ▸ hkeyword)]
      refine (Mimics.bind (.decl keyword) fun d d' hd => .bind .freshId fun _ _ _ => .pure ?_).run hrun hlive hs
      exact ⟨congrArg (Stmt.decl .dummy) hd.erase, hd.entries⟩
    | semi hsemi =>
      have hne : s.token.kind ≠ .eof := by
        rw [hsemi]
        decide
      have htoken := hs.token hne
      obtain ⟨id, u, hid, hnumber, hjoined⟩ := (Mimics.freshId (b := false)).run rfl hlive (hs.next hne)
      refine ⟨_, _, stmt_of_semi (htoken.kind.trans hsemi), .plain ?_ rfl rfl, ?_⟩
      · rw [Stmt.erase, Stmt.erase, htoken.implicit]
      · cases hid
        exact hjoined
    | @operand u v made hoperand hsimple hclose =>
      have hkind := (hs.token (fun heof => by rw [heof] at hoperand; cases hoperand)).kind
      rw [stmt_of_operand hoperand] at hrun
      rw [stmt_of_operand (hkind ▸ hoperand)]
      refine (Mimics.bind .simple fun made made' hmade => .bind .expectSemi fun _ _ _ =>
        .bind .freshId fun id id' hid => .pure ?_).run hrun hlive hs
      rw [hid]
      exact hmade id
    | @other u span hkeyword hoperand hsemi hskipped =>
      have hu : u.findings = [] := hlive.1
      exact absurd hu (not_clean_of_skipped (fun _ _ => not_clean_of_expected) hskipped)

end Mimics

theorem length_tokens_stmt_lt {s t : State} {st : Stmt} (hs : s.Terminated) (hclean : t.findings = [])
    (h : stmt s = .ok st t) : t.tokens.length < s.tokens.length := by
  obtain ⟨-, -, -, ⟨ts, hisStmt, hmakes⟩ | ⟨hlt, -⟩⟩ := stmt_makes hs hclean h
  · have hpos := List.length_pos_iff.mpr hisStmt.ne_nil
    rw [hmakes.tokens, List.length_append]
    omega
  · exact hlt

end Parse

/-- The first number that is left after the statements. -/
def numberAfter (start : NodeId) (made : List Stmt) : NodeId := (made.getLast?.map fun st => st.id + 1).getD start

theorem numberAfter_cons (start : NodeId) (st : Stmt) (made : List Stmt) :
    numberAfter start (st :: made) = numberAfter (st.id + 1) made := by
  rw [numberAfter, numberAfter, List.getLast?_cons]
  cases made.getLast? <;> rfl

namespace Parse

/-- From `s` to `t` the statements `made` are read, and the longer parse reads as many from `s'` to `t'`. Each takes a
token. -/
structure Seam.Passes (m : Seam) (s s' t t' : State) (made made' : List Stmt) : Prop where
  length_le : made.length + t.tokens.length ≤ s.tokens.length
  rounds : Rounds made.length s' t'
  joined : m.Joined t t'
  stmts : t.stmts = s.stmts ++ made
  stmts' : t'.stmts = s'.stmts ++ made'
  same : List.Forall₂ (Stmt.Joined m) made made'
  nextId : t.nextId = numberAfter s.nextId made

theorem Seam.Joined.passes {s s' : State} (h : m.Joined s s') : m.Passes s s' s s' [] [] where
  length_le := Nat.le_of_eq (Nat.zero_add _)
  rounds := .none s'
  joined := h
  stmts := (List.append_nil _).symm
  stmts' := (List.append_nil _).symm
  same := .nil
  nextId := rfl

theorem Rounds.clean {n : Nat} {s t : State} (h : Rounds n s t) (hclean : t.findings = []) : s.findings = [] := by
  induction h with
  | none s => exact hclean
  | made heof hst _ ih => exact (Extends.of_ok .stmt hst).clean (ih hclean)

/-- All statements of a text are read in the longer one. -/
theorem Rounds.passes {n : Nat} {s s' t : State} (h : Rounds n s t) (hs : m.Joined s s') (hclean : t.findings = []) :
    ∃ made made' t', m.Passes s s' t t' made made' := by
  induction h generalizing s' with
  | none s => exact ⟨[], [], s', hs.passes⟩
  | @made n s u t st hgo hst hrest ih =>
    have hu : u.findings = [] := hrest.clean hclean
    have hshorter := length_tokens_stmt_lt hs.terminated hu hst
    obtain ⟨st', u', hst', hmade, hjoined⟩ := Mimics.stmt.run hst ⟨hu, by simp⟩ hs
    have hnext : m.Joined { u with stmts := u.stmts ++ [st] } { u' with stmts := u'.stmts ++ [st'] } :=
      { hjoined with }
    obtain ⟨made, made', t', hpasses⟩ := ih hnext hclean
    have hgo' : s'.token.kind ≠ .eof := (hs.token hgo).kind.symm ▸ hgo
    refine ⟨st :: made, st' :: made', t', ?_, .made hgo' hst' hpasses.rounds, hpasses.joined, ?_, ?_,
      .cons hmade hpasses.same, ?_⟩
    · have hle : made.length + t.tokens.length ≤ u.tokens.length := hpasses.length_le
      rw [List.length_cons]
      omega
    · rw [hpasses.stmts, (Extends.of_ok .stmt hst).stmts, List.append_assoc]
      rfl
    · rw [hpasses.stmts', (Extends.of_ok .stmt hst').stmts, List.append_assoc]
      rfl
    · rw [hpasses.nextId, numberAfter_cons, ← nextId_stmt hst]

end Parse

end RoseLang
