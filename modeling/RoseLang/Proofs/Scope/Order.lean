import RoseLang.Proofs.Scope.Uses
import RoseLang.Proofs.Syntax.Grammar
import RoseLang.Proofs.Token.Placement

/-!
# Uses and declarations in place

The events of a file are in the order of the text: an identifier stands at its position and a spec declares
its names at its end, since it does not see them before. So the specs before a use are those that end before
the identifier. The proof goes through the grammar, which knows the tokens of every part of the tree.
-/

namespace RoseLang

/-- The place from which on the event counts. -/
def Event.start : Event → Nat
  | use u => u.ident.pos.index
  | declare x => x.spec.stop.index

/-- The place from which on a later event may count. -/
def Event.stop : Event → Nat
  | use u => u.ident.pos.index + 1
  | declare x => x.spec.stop.index

theorem Event.start_le_stop (e : Event) : e.start ≤ e.stop := by
  cases e with
  | use u => exact Nat.le_succ _
  | declare x => exact Nat.le_refl _

/-- The events lie one after the other, from `lo` on and not beyond `hi`. -/
def Sits : Nat → List Event → Nat → Prop
  | lo, [], hi => lo ≤ hi
  | lo, e :: es, hi => lo ≤ e.start ∧ Sits e.stop es hi

namespace Sits

variable {lo mid hi : Nat} {es fs : List Event}

theorem mono {lo' : Nat} (hlo : lo' ≤ lo) (h : Sits lo es hi) : Sits lo' es hi := by
  cases es with
  | nil => exact Nat.le_trans hlo h
  | cons e es => exact ⟨Nat.le_trans hlo h.1, h.2⟩

theorem append_iff : Sits lo (es ++ fs) hi ↔ ∃ mid, Sits lo es mid ∧ Sits mid fs hi := by
  induction es generalizing lo with
  | nil =>
    constructor
    · intro h
      exact ⟨lo, Nat.le_refl lo, h⟩
    · rintro ⟨mid, hle, h⟩
      exact h.mono hle
  | cons e es ih =>
    rw [List.cons_append, Sits, ih]
    constructor
    · rintro ⟨hle, mid, hes, hfs⟩
      exact ⟨mid, ⟨hle, hes⟩, hfs⟩
    · rintro ⟨mid, ⟨hle, hes⟩, hfs⟩
      exact ⟨hle, mid, hes, hfs⟩

theorem append (h : Sits lo es mid) (h' : Sits mid fs hi) : Sits lo (es ++ fs) hi := append_iff.mpr ⟨mid, h, h'⟩

theorem extend (h : Sits lo es mid) (hhi : mid ≤ hi) : Sits lo es hi := by
  rw [← List.append_nil es]
  exact h.append hhi

theorem le (h : Sits lo es hi) : lo ≤ hi := by
  induction es generalizing lo with
  | nil => exact h
  | cons e es ih => exact Nat.le_trans h.1 (Nat.le_trans e.start_le_stop (ih h.2))

theorem le_of_mem {e : Event} (h : Sits lo es hi) (he : e ∈ es) : lo ≤ e.start ∧ e.stop ≤ hi := by
  induction es generalizing lo with
  | nil => cases he
  | cons f es ih =>
    obtain ⟨hle, hes⟩ := h
    rcases List.mem_cons.mp he with rfl | he
    · exact ⟨hle, hes.le⟩
    · obtain ⟨hstart, hstop⟩ := ih hes he
      exact ⟨Nat.le_trans hle (Nat.le_trans f.start_le_stop hstart), hstop⟩

end Sits

/-- The specs before a use end before it, those after it do not. -/
theorem Sits.use {lo hi : Nat} {before after : List Event} {u : Use}
    (h : Sits lo (before ++ .use u :: after) hi) {x : Entry} :
    (x ∈ entriesIn before → x.spec.stop.index ≤ u.ident.pos.index) ∧
      (x ∈ entriesIn after → u.ident.pos.index < x.spec.stop.index) := by
  obtain ⟨mid, hbefore, hle, hafter⟩ := append_iff.mp h
  exact ⟨fun hx => Nat.le_trans (hbefore.le_of_mem (mem_entriesIn.mp hx)).2 hle,
    fun hx => (hafter.le_of_mem (mem_entriesIn.mp hx)).1⟩

namespace Expr

variable {id : NodeId} {op : BinaryOp} {opPos : Pos} {e operand : Expr}

theorem stop_link : (e.link id op opPos operand).stop = operand.stop := by
  induction e with
  | binary outerId outer outerPos left right ihleft ihright =>
    rw [link]
    split
    · exact ihright
    · rfl
  | _ => rfl

theorem idents_link : (e.link id op opPos operand).idents = e.idents ++ operand.idents := by
  induction e with
  | binary outerId outer outerPos left right ihleft ihright =>
    rw [link]
    split
    · rw [idents, ihright, idents, List.append_assoc]
    · rfl
  | _ => rfl

/-- What stands for the identifiers of an expression in the events. -/
def events (inType : Bool) (e : Expr) : List Event := (e.uses inType).map .use

theorem events_link (inType : Bool) :
    (e.link id op opPos operand).events inType = e.events inType ++ operand.events inType := by
  rw [events, uses, idents_link, List.map_append, List.map_append]
  rfl

theorem map_use_flatMap_uses (inType : Bool) (es : List Expr) :
    (es.flatMap (uses inType)).map Event.use = es.flatMap (events inType) := List.map_flatMap

end Expr

namespace Grammar

variable {ts : List Token} {lo hi : Nat}

theorem IsName.stop {i : Ident} (h : IsName ts i) (hruns : Runs lo ts hi) :
    lo ≤ i.pos.index ∧ i.pos.index < hi ∧ i.stop.index = hi := by
  obtain @⟨t, i, hkind, hpos, hname⟩ := h
  obtain ⟨hlo, hfills, rfl⟩ := hruns
  have hsemi : t.kind ≠ .semi := by rw [hkind]; decide
  have hwritten : t.written = t.text := by rw [Token.written, hkind]; rfl
  rw [Ident.stop, hpos, hname, ← hwritten]
  exact ⟨hlo, hfills.lt hsemi, hfills.stop hsemi⟩

/-- The expression ends where its tokens do, and its identifiers lie among them. -/
def Lies (lo : Nat) (e : Expr) (hi : Nat) : Prop :=
  e.stop.index = hi ∧ ∀ inType, Sits lo (e.events inType) hi

theorem Lies.mono {lo' : Nat} {e : Expr} (hlo : lo' ≤ lo) (h : Lies lo e hi) : Lies lo' e hi :=
  ⟨h.1, fun inType => (h.2 inType).mono hlo⟩

theorem IsName.lies {i : Ident} (id : NodeId) (h : IsName ts i) (hruns : Runs lo ts hi) :
    Lies lo (.ident id i) hi := by
  obtain ⟨hlo, hhi, hstop⟩ := h.stop hruns
  exact ⟨hstop, fun inType => ⟨hlo, hhi⟩⟩

/-- What is in parentheses, up to the right one. -/
theorem lies_paren {l r : Token} {e : Expr} {id : NodeId} (hr : r.kind = .rparen)
    (hinner : ∀ {lo hi}, Runs lo ts hi → Lies lo e hi) (hruns : Runs lo (l :: ts ++ [r]) hi) :
    Lies lo (.paren id l.pos e r.pos) hi := by
  obtain ⟨mid, hleft, hle, hfills, rfl⟩ := Runs.append_iff.mp hruns
  obtain ⟨start, hlo, hts⟩ := hleft.tail
  obtain ⟨-, hsits⟩ := hinner hts
  have hsemi : r.kind ≠ .semi := by rw [hr]; decide
  have hwritten : r.written.utf8ByteSize = 1 := by rw [Token.written, hr]; rfl
  have hstop := hfills.stop hsemi
  rw [hwritten] at hstop
  exact ⟨hstop, fun inType => ((hsits inType).mono hlo).extend (Nat.le_trans hle hfills.le)⟩

theorem IsType.lies {e : Expr} (h : IsType ts e) (hruns : Runs lo ts hi) : Lies lo e hi := by
  induction h generalizing lo hi with
  | ident hname => exact hname.lies _ hruns
  | paren hl hinner hr ih => exact lies_paren hr ih hruns

theorem IsExpr.lies {phrase : Phrase} {e : Expr} (h : IsExpr phrase ts e) (hruns : Runs lo ts hi) :
    Lies lo e hi := by
  induction h generalizing lo hi with
  | ident hname => exact hname.lies _ hruns
  | @literal t kind id hkind =>
    obtain ⟨hlo, hfills, rfl⟩ := hruns
    have htoken := LiteralKind.token_of_ofToken? hkind
    have hsemi : t.kind ≠ .semi := by rw [← htoken]; cases kind <;> decide
    have hwritten : t.written = t.text := by rw [Token.written, ← htoken]; cases kind <;> rfl
    have hstop := hfills.stop hsemi
    rw [hwritten] at hstop
    exact ⟨hstop, fun inType => Nat.le_trans hlo hfills.le⟩
  | unary hop hoperand ih =>
    obtain ⟨mid, hlo, hts⟩ := hruns.tail
    exact (ih hts).mono hlo
  | paren hl hinner hr ih => exact lies_paren hr ih hruns
  | first hfirst ih => exact ih hruns
  | @link ts e t op us operand id hleft hop hoperand ihleft ihoperand =>
    obtain ⟨mid, hts, hright⟩ := Runs.append_iff.mp hruns
    obtain ⟨mid', hle, hus⟩ := hright.tail
    obtain ⟨-, hleft⟩ := ihleft hts
    obtain ⟨hstop, hright⟩ := (ihoperand hus).mono hle
    refine ⟨by rwa [Expr.stop_link], fun inType => ?_⟩
    rw [Expr.events_link]
    exact (hleft inType).append (hright inType)

/-- Items with separators between them. -/
theorem Separated.lies {α : Type} {sep : Kind} {Item : List Token → α → Prop} {as : List α} {stop : α → Pos}
    {events : α → List Event}
    (hitem : ∀ ts a lo hi, Item ts a → Runs lo ts hi → (stop a).index = hi ∧ Sits lo (events a) hi)
    (h : Separated sep Item ts as) (hruns : Runs lo ts hi) :
    (∃ a, as.getLast? = some a ∧ (stop a).index = hi) ∧ Sits lo (as.flatMap events) hi := by
  induction h generalizing lo hi with
  | @one ts a ha =>
    obtain ⟨hstop, hsits⟩ := hitem _ _ _ _ ha hruns
    rw [List.flatMap_singleton]
    exact ⟨⟨a, rfl, hstop⟩, hsits⟩
  | @more ts a t us as ha hsep hrest ih =>
    obtain ⟨mid, hts, hright⟩ := Runs.append_iff.mp hruns
    obtain ⟨mid', hle, hus⟩ := hright.tail
    obtain ⟨⟨last, hlast, hstop⟩, hsits⟩ := ih hus
    refine ⟨⟨last, ?_, hstop⟩, ?_⟩
    · rw [List.getLast?_cons, hlast]
      rfl
    · rw [List.flatMap_cons]
      exact (hitem _ _ _ _ ha hts).2.append (hsits.mono hle)

theorem Separated.lies_exprs {es : List Expr} (h : Separated .comma (IsExpr .expr) ts es)
    (hruns : Runs lo ts hi) :
    (∃ e, es.getLast? = some e ∧ e.stop.index = hi) ∧ Sits lo ((es.flatMap (Expr.uses false)).map .use) hi := by
  rw [Expr.map_use_flatMap_uses]
  refine h.lies (fun ts e lo hi he hruns => ?_) hruns
  obtain ⟨hstop, hsits⟩ := he.lies hruns
  exact ⟨hstop, hsits false⟩

theorem Separated.stop_names {names : List Ident} (h : Separated .comma IsName ts names)
    (hruns : Runs lo ts hi) : ∃ name, names.getLast? = some name ∧ name.stop.index = hi := by
  have hname : ∀ ts i lo hi, IsName ts i → Runs lo ts hi → i.stop.index = hi ∧ Sits lo [] hi :=
    fun _ _ _ _ hname hruns => ⟨(hname.stop hruns).2.2, hruns.le⟩
  exact (h.lies hname hruns).1

theorem IsTypeOption.lies {type : Option Expr} (h : IsTypeOption ts type) (hruns : Runs lo ts hi) :
    (∀ e ∈ type, e.stop.index = hi) ∧ (type = Option.none → lo = hi) ∧
      Sits lo ((type.toList.flatMap (Expr.uses true)).map .use) hi := by
  cases h with
  | none => exact ⟨by simp, fun _ => hruns, hruns.le⟩
  | @some ts e htype =>
    obtain ⟨hstop, hsits⟩ := htype.lies hruns
    rw [Expr.map_use_flatMap_uses, Option.toList_some, List.flatMap_singleton]
    exact ⟨by simpa using hstop, by simp, hsits true⟩

theorem IsValues.lies {es : List Expr} (h : IsValues ts es) (hruns : Runs lo ts hi) :
    (∀ e ∈ es.getLast?, e.stop.index = hi) ∧ (es.getLast? = Option.none → lo = hi) ∧
      Sits lo ((es.flatMap (Expr.uses false)).map .use) hi := by
  cases h with
  | none => exact ⟨by simp, fun _ => hruns, hruns.le⟩
  | some hassign hvalues =>
    obtain ⟨mid, hle, hts⟩ := hruns.tail
    obtain ⟨⟨e, hlast, hstop⟩, hsits⟩ := hvalues.lies_exprs hts
    rw [hlast]
    exact ⟨by simpa using hstop, by simp, hsits.mono hle⟩

theorem IsSpec.lies {s : Spec} (h : IsSpec ts s) (keyword : DeclKeyword) (index : Nat) (hruns : Runs lo ts hi) :
    Sits lo (Entry.events ⟨keyword, index, s⟩) hi := by
  obtain @⟨ns, names, ts, type, vs, values, id, hnames, htype, hvalues⟩ := h
  obtain ⟨mid', hleft, hvs⟩ := Runs.append_iff.mp hruns
  obtain ⟨mid, hns, hts⟩ := Runs.append_iff.mp hleft
  obtain ⟨name, hname, hnameStop⟩ := hnames.stop_names hns
  obtain ⟨htypeStop, hnoType, htypeSits⟩ := htype.lies hts
  obtain ⟨hvalueStop, hnoValue, hvaluesSits⟩ := hvalues.lies hvs
  have hstop : (Spec.stop ⟨id, names, type, values⟩).index = hi := by
    rw [Spec.stop]
    cases hvalue : values.getLast? with
    | some value => exact hvalueStop value hvalue
    | none =>
      obtain rfl := hnoValue hvalue
      cases type with
      | some type => exact htypeStop type rfl
      | none =>
        obtain rfl := hnoType rfl
        rw [hname]
        exact hnameStop
  rw [Entry.events, Spec.uses, List.map_append]
  refine ((htypeSits.mono hns.le).append hvaluesSits).append ⟨?_, ?_⟩
  · exact Nat.le_of_eq hstop.symm
  · exact Nat.le_of_eq hstop

theorem Separated.sits_specs {specs : List Spec} (h : Separated .semi IsSpec ts specs) (keyword : DeclKeyword)
    (index : Nat) (hruns : Runs lo ts hi) :
    Sits lo ((entriesFrom keyword index specs).flatMap Entry.events) hi := by
  induction h generalizing lo index with
  | one hspec =>
    rw [entriesFrom_cons, List.flatMap_cons]
    exact (hspec.lies keyword index hruns).append (Nat.le_refl hi)
  | @more ts spec t us specs hspec hsemi hrest ih =>
    obtain ⟨mid, hts, hright⟩ := Runs.append_iff.mp hruns
    obtain ⟨mid', hle, hus⟩ := hright.tail
    rw [entriesFrom_cons, List.flatMap_cons]
    exact (hspec.lies keyword index hts).append ((ih (index + 1) hus).mono hle)

theorem IsGroup.sits {specs : List Spec} (h : IsGroup ts specs) (keyword : DeclKeyword) (hruns : Runs lo ts hi) :
    Sits lo ((entriesFrom keyword 0 specs).flatMap Entry.events) hi := by
  cases h with
  | empty => exact hruns.le
  | specs hspecs => exact hspecs.sits_specs keyword 0 hruns
  | closed hspecs ht =>
    obtain ⟨mid, hle, hts⟩ := hruns.init
    exact (hspecs.sits_specs keyword 0 hts).extend hle

theorem IsDecl.sits {d : Decl} (h : IsDecl ts d) (hruns : Runs lo ts hi) :
    Sits lo (d.entries.flatMap Entry.events) hi := by
  cases h with
  | @spec k keyword ts spec id hk hspec =>
    obtain ⟨mid, hle, hts⟩ := hruns.tail
    exact ((Separated.one hspec).sits_specs keyword 0 hts).mono hle
  | @group k keyword l ts specs r id hk hl hgroup hr =>
    obtain ⟨stop, hhi, hleft⟩ := hruns.init
    obtain ⟨mid, hlo, hopen⟩ := hleft.tail
    obtain ⟨start, hmid, hts⟩ := hopen.tail
    exact ((hgroup.sits keyword hts).mono (Nat.le_trans hlo hmid)).extend hhi

theorem IsSimple.sits {st : Stmt} (h : IsSimple ts st) (hruns : Runs lo ts hi) : Sits lo st.events hi := by
  cases h with
  | @assign ls left t op rs right id hleft hop hright =>
    obtain ⟨mid, hls, htail⟩ := Runs.append_iff.mp hruns
    obtain ⟨mid', hle, hrs⟩ := htail.tail
    show Sits lo (((left ++ right).flatMap (Expr.uses false)).map .use) hi
    rw [List.flatMap_append, List.map_append]
    exact (hleft.lies_exprs hls).2.append ((hright.lies_exprs hrs).2.mono hle)
  | expr hexpr => exact (hexpr.lies hruns).2 false
  | inc hexpr ht | dec hexpr ht =>
    obtain ⟨mid, hle, hts⟩ := hruns.init
    exact ((hexpr.lies hts).2 false).extend hle

theorem IsStmt.sits {st : Stmt} (h : IsStmt ts st) (hruns : Runs lo ts hi) : Sits lo st.events hi := by
  cases h with
  | empty ht => exact hruns.le
  | simple hsimple ht =>
    obtain ⟨mid, hle, hts⟩ := hruns.init
    exact (hsimple.sits hts).extend hle
  | decl hdecl ht =>
    obtain ⟨mid, hle, hts⟩ := hruns.init
    exact (hdecl.sits hts).extend hle

/-- The events of a file stand in the order of its text. -/
theorem IsFile.sits {stmts : List Stmt} (h : IsFile ts stmts) (hruns : Runs lo ts hi) :
    Sits lo (stmts.flatMap Stmt.events) hi := by
  induction h generalizing lo with
  | nil => exact hruns.le
  | cons hstmt hrest ih =>
    obtain ⟨mid, hts, hus⟩ := Runs.append_iff.mp hruns
    rw [List.flatMap_cons]
    exact (hstmt.sits hts).append (ih hus)

end Grammar

end RoseLang
