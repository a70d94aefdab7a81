import RoseLang.Proofs.Parse.Append.Declarations
import RoseLang.Proofs.Parse.Append.Tokens
import RoseLang.Proofs.Parse.Names.File

/-!
# Files put together

Statements are parsed one after the other and independently of each other, but for the names that they declare. A
clean parse leaves nothing else behind: where it ends the next statement starts as it does in a text of its own.
-/

namespace RoseLang

open Parse Text

namespace Parse

/-! ### One text -/

theorem firstState_of_lexed (file : SourceFile) (source : String) (allErrors : Bool)
    (h : (Lexer.ofText source ⟨file.base⟩).tokenize.2 = []) :
    ∃ l ls, (Lexer.ofText source ⟨file.base⟩).lexemes = l :: ls ∧ (∀ x ∈ ls, x.errors = []) ∧
      firstState file source allErrors =
        { State.start file allErrors [] with
          token := l.token, rest := ls, names := (Resolver.empty.openScope .file).2 } := by
  obtain ⟨ls, hlexemes⟩ := (Lexer.ofText source ⟨file.base⟩).lexemes_eq_cons
  rw [Lexer.tokenize_ofText, hlexemes] at h
  have hclean := List.flatMap_eq_nil_iff.mp h
  refine ⟨_, ls, hlexemes, fun x hx => hclean x (List.mem_cons_of_mem _ hx), ?_⟩
  rw [firstState, hlexemes]
  dsimp only
  rw [State.next_of_clean rfl (hclean _ List.mem_cons_self)]
  rfl

theorem findings_firstState_of_lexed {file : SourceFile} {source : String} {allErrors : Bool}
    (h : (Lexer.ofText source ⟨file.base⟩).tokenize.2 = []) : (firstState file source allErrors).findings = [] :=
  findings_firstState.mpr fun l hl => List.flatMap_eq_nil_iff.mp h l (List.mem_of_mem_head? hl)

/-- A parse without an error ends at the end token, and such that the next statement would start as the first one
did. -/
structure EndsClean (file : SourceFile) (source : String) (allErrors : Bool) : Prop where
  lexed : (Lexer.ofText source ⟨file.base⟩).tokenize.2 = []
  rounds : ∃ n, Rounds n (firstState file source allErrors) (lastState file source allErrors)
  findings : (lastState file source allErrors).findings = []
  eof : (lastState file source allErrors).token.kind = .eof
  depth : (lastState file source allErrors).depth = 0
  inRhs : (lastState file source allErrors).inRhs = false

theorem endsClean_of_isOk {file : SourceFile} {source : String} {allErrors : Bool}
    (h : (file.parse source allErrors).isOk = true) : EndsClean file source allErrors := by
  have hlexed : (Lexer.ofText source ⟨file.base⟩).tokenize.2 = [] :=
    List.flatMap_eq_nil_iff.mpr (SourceFile.parse_sound h).1
  have hclean := (isOk_parse file source allErrors).mp h
  have hrun := stmts_lastState (findings_firstState_of_clean hclean) (.inr hclean)
  have hlength := length_tokens_firstState_le file source allErrors
  obtain ⟨-, -, -, heof, hdepth, hinRhs, -⟩ :=
    stmts_makes (terminated_firstState file source allErrors) (by omega) hclean hrun
  obtain ⟨l, ls, -, -, hfirst⟩ := firstState_of_lexed file source allErrors hlexed
  exact ⟨hlexed, Rounds.of_stmts hrun, hclean, heof, hdepth.trans (congrArg State.depth hfirst),
    hinRhs.trans (congrArg State.inRhs hfirst)⟩

theorem joined_firstState {m : Seam} {file file' : SourceFile} {source source' : String} {allErrors : Bool}
    (hclean : (Lexer.ofText source ⟨file.base⟩).tokenize.2 = [])
    (hclean' : (Lexer.ofText source' ⟨file'.base⟩).tokenize.2 = []) (hids : m.ids = 0)
    (hlead : m.Lead (Lexer.ofText source ⟨file.base⟩).tokenize.1 (Lexer.ofText source' ⟨file'.base⟩).tokenize.1) :
    m.Joined (firstState file source allErrors) (firstState file' source' true) := by
  obtain ⟨l, ls, hlexemes, hls, hstate⟩ := firstState_of_lexed file source allErrors hclean
  obtain ⟨l', ls', hlexemes', hls', hstate'⟩ := firstState_of_lexed file' source' true hclean'
  rw [Lexer.tokenize_ofText, Lexer.tokenize_ofText, hlexemes, hlexemes'] at hlead
  rw [hstate, hstate']
  exact ⟨rfl, hlead, hls, hls', rfl, rfl, hids.symm ▸ rfl, fun f hf => by cases hf⟩

/-! ### Two texts -/

theorem Seam.Lead.follow_suffix {m : Seam} {ts ts' : List Token} (h : m.Lead ts ts') : m.follow <:+ ts' := by
  induction h with
  | last => exact List.suffix_refl _
  | cons ht hne hrest ih => exact ih.trans (List.suffix_cons _ _)

/-- Where a text ends in the longer one, another is read there as from a start of its own. -/
theorem Seam.Joined.restart {m m' : Seam} {t u : State} {file : SourceFile} {source : String} {allErrors : Bool}
    (h : m.Joined t u) (hclean : (Lexer.ofText source ⟨file.base⟩).tokenize.2 = [])
    (hlead : m'.Lead (Lexer.ofText source ⟨file.base⟩).tokenize.1 u.tokens) (hdepth : t.depth = 0)
    (hinRhs : t.inRhs = false) (hids : m'.ids = t.nextId + m.ids) :
    m'.Joined (firstState file source allErrors) u := by
  obtain ⟨l, ls, -, hls, hstate⟩ := firstState_of_lexed file source allErrors hclean
  rw [← tokens_firstState file source allErrors, hstate] at hlead
  rw [hstate]
  have hnumber : u.nextId = 0 + m'.ids := by rw [h.nextId, hids, Nat.zero_add]
  exact ⟨h.allErrors, hlead, hls, h.clean', h.depth.trans hdepth, h.inRhs.trans hinRhs, hnumber, h.clashes⟩

theorem EndsClean.passes {m : Seam} {file : SourceFile} {source : String} {allErrors : Bool} {s : State}
    (h : EndsClean file source allErrors) (hs : m.Joined (firstState file source allErrors) s) :
    ∃ made t, m.Passes (firstState file source allErrors) s (lastState file source allErrors) t
        (lastState file source allErrors).stmts made ∧ t.tokens = m.follow ∧
      (lastState file source allErrors).nextId = numberAfter 0 (lastState file source allErrors).stmts := by
  obtain ⟨n, hrounds⟩ := h.rounds
  obtain ⟨made, made', t, hpasses⟩ := hrounds.passes hs h.findings
  obtain rfl : (lastState file source allErrors).stmts = made := by
    rw [hpasses.stmts, stmts_firstState, List.nil_append]
  obtain ⟨l, ls, -, -, hfirst⟩ := firstState_of_lexed file source allErrors h.lexed
  have hnumber : (firstState file source allErrors).nextId = 0 := congrArg State.nextId hfirst
  exact ⟨made', t, hpasses, hpasses.joined.tokens_of_eof h.eof, hnumber ▸ hpasses.nextId⟩

/-- Two rounds for each token are enough to read the statements of both texts. -/
theorem Seam.Passes.ends {m m' : Seam} {s₁ t₁ s₂ t₂ s u v : State} {made₁ made₂ made made' : List Stmt} {n : Nat}
    (h : m.Passes s₁ s t₁ u made₁ made) (h' : m'.Passes s₂ u t₂ v made₂ made') (hs : m.Joined s₁ s)
    (hu : m'.Joined s₂ u) (hfollow : u.tokens = m.follow) (heof : v.token.kind = .eof)
    (hn : 2 * s.tokens.length ≤ n) : Parse.stmts n s = .ok () v := by
  have hlength : made₁.length + made₂.length ≤ n := by
    have hle := h.length_le
    have hle' := h'.length_le
    have hlonger := hs.tokens.length_le
    have hlonger' := hu.tokens.length_le
    have hsuffix := hs.tokens.follow_suffix.length_le
    rw [← hfollow] at hsuffix
    omega
  obtain ⟨k, rfl⟩ := Nat.exists_eq_add_of_le hlength
  rw [Nat.add_assoc, h.rounds.stmts_add, h'.rounds.stmts_add, stmts_of_eof k heof]

/-- The statements of both texts are those of the first one, `made`, and behind them those of the second one, `made'`.
Whatever is found at fault there is a clash. -/
structure Seam.Meets (m m' : Seam) (first : String) (r₁ r₂ : ParseResult) (t : State) (made made' : List Stmt) :
    Prop where
  bytes : m.bytes = 0
  ids : m.ids = 0
  bytes' : m'.bytes = utf8Length first.toList + 1
  ids' : m'.ids = numberAfter 0 r₁.file.stmts
  same : List.Forall₂ (Stmt.Joined m) r₁.file.stmts made
  same' : List.Forall₂ (Stmt.Joined m') r₂.file.stmts made'
  stmts : t.stmts = made ++ made'
  clashes : ∀ f ∈ t.findings, f.fault.IsClash

theorem parse_meets {file₁ file₂ file : SourceFile} {first second : String} {allErrors₁ allErrors₂ : Bool}
    (hbase₁ : file₁.base = file.base) (hbase₂ : file₂.base = file.base) (hbase : 0 < file.base)
    (hfits : file.base + utf8Length (first ++ "\n" ++ second).toList ≤ Pos.last.index)
    (hok₁ : (file₁.parse first allErrors₁).isOk = true) (hok₂ : (file₂.parse second allErrors₂).isOk = true) :
    (Lexer.ofText (first ++ "\n" ++ second) ⟨file.base⟩).tokenize.2 = [] ∧
      ∃ (m m' : Seam) (made made' : List Stmt),
        m.Meets m' first (file₁.parse first allErrors₁) (file₂.parse second allErrors₂)
          (lastState file (first ++ "\n" ++ second) true) made made' := by
  have h₁ := endsClean_of_isOk hok₁
  have h₂ := endsClean_of_isOk hok₂
  have hvalid : (⟨file.base⟩ : Pos).isValid = true := decide_eq_true (Nat.pos_iff_ne_zero.mp hbase)
  obtain ⟨hlexed, m, m', hbytes, hids, hbytes', hids', hlead, hlead', e, hend, he⟩ :=
    Lexer.lead_ofText hvalid hfits (hbase₁ ▸ h₁.lexed) (hbase₂ ▸ h₂.lexed)
      (numberAfter 0 (lastState file₁ first allErrors₁).stmts)
  let s := firstState file (first ++ "\n" ++ second) true
  have hs : m.Joined (firstState file₁ first allErrors₁) s :=
    joined_firstState h₁.lexed hlexed hids (hbase₁ ▸ hlead)
  obtain ⟨made, u, hpasses, hfollow, hnumber⟩ := h₁.passes hs
  have hu : m'.Joined (firstState file₂ second allErrors₂) u := by
    have hids₂ : m'.ids = (lastState file₁ first allErrors₁).nextId + m.ids := by
      rw [hids', hids, hnumber, Nat.add_zero]
    rw [← hbase₂, ← hfollow] at hlead'
    exact hpasses.joined.restart h₂.lexed hlead' h₁.depth h₁.inRhs hids₂
  obtain ⟨made', v, hpasses', hfollow', -⟩ := h₂.passes hu
  have heof : v.token.kind = .eof := by
    rw [hend, State.tokens] at hfollow'
    rw [(List.cons.inj hfollow').1, he]
  have hrun := hpasses.ends hpasses' hs hu hfollow heof
    (length_tokens_firstState_le file (first ++ "\n" ++ second) true)
  have hlast : lastState file (first ++ "\n" ++ second) true = v :=
    (lastState_of_clean (findings_firstState_of_lexed hlexed)).trans (endState_of_ok hrun)
  refine ⟨hlexed, m, m', made, made', ?_⟩
  rw [hlast]
  refine ⟨hbytes, hids, hbytes', hids', hpasses.same, hpasses'.same, ?_, hpasses'.joined.clashes⟩
  rw [hpasses'.stmts', hpasses.stmts', stmts_firstState, List.nil_append]

/-! ### Results -/

theorem objects_lastState {file : SourceFile} {source : String} {allErrors : Bool}
    (hfirst : (firstState file source allErrors).findings = [])
    (h : allErrors = true ∨ (lastState file source allErrors).findings = []) :
    (file.parse source allErrors).objects =
      (sitesOf ((file.parse source allErrors).file.stmts.flatMap Stmt.entries)).mapIdx Site.object := by
  have hmirrors := (follows_lastState hfirst h).mirrors
  rw [entriesIn_flatMap entriesIn_events] at hmirrors
  exact hmirrors.objects

theorem objects_of_isOk {file : SourceFile} {source : String} {allErrors : Bool}
    (h : (file.parse source allErrors).isOk = true) :
    (file.parse source allErrors).objects =
      (sitesOf ((file.parse source allErrors).file.stmts.flatMap Stmt.entries)).mapIdx Site.object := by
  have hclean := (isOk_parse file source allErrors).mp h
  exact objects_lastState (findings_firstState_of_clean hclean) (.inr hclean)

theorem Fault.IsClash.kind {fault : Fault} (h : fault.IsClash) : fault.kind = .semantic := by
  cases fault with
  | notType | redeclared => rfl
  | _ => cases h

/-- Where nothing but clashes has been met, and the declarations keep the rules, nothing has been met. -/
theorem Follows.findings_eq_nil {t : State} {us : List Use} (h : Follows (t.stmts.flatMap Stmt.events) us t)
    (hall : t.allErrors = true) (hclashes : ∀ f ∈ t.findings, f.fault.IsClash)
    (hadmissible : AllAdmissible [] (t.stmts.flatMap Stmt.entries)) : t.findings = [] := by
  have hsemantic : semantic t.findings = t.findings :=
    List.filter_eq_self.mpr fun f hf => decide_eq_true (hclashes f hf).kind
  rw [← hsemantic, h.complaints hall, entriesIn_flatMap entriesIn_events]
  exact complaints_eq_nil hadmissible

theorem entries_joined {m : Seam} {made made' : List Stmt} (h : List.Forall₂ (Stmt.Joined m) made made') :
    List.Forall₂ (Entry.Joined m) (made.flatMap Stmt.entries) (made'.flatMap Stmt.entries) := by
  induction h with
  | nil => exact .nil
  | cons hst hrest ih => exact List.rel_append hst.entries ih

theorem sexps_joined {m : Seam} {made made' : List Stmt} (h : List.Forall₂ (Stmt.Joined m) made made') :
    made'.map Stmt.sexp = made.map Stmt.sexp := by
  refine (map_eq_map_of_forall₂ h fun {st st'} hst => ?_).symm
  rw [← st.sexp_erase, ← hst.erase, st'.sexp_erase]

end Parse

/-- Two texts that are parsed without errors, one after the other with a line end between them, are parsed as they are
alone. What is reported can only be a name of the first text that is declared again or used as a type in the
second one. -/
theorem SourceFile.parse_append {name₁ name₂ name first second : String} {base : Nat} {file₁ file₂ file : SourceFile}
    {allErrors₁ allErrors₂ : Bool} (hbase : 0 < base) (hfile₁ : ofText name₁ base first = .ok file₁)
    (hfile₂ : ofText name₂ base second = .ok file₂) (hfile : ofText name base (first ++ "\n" ++ second) = .ok file)
    (hok₁ : (file₁.parse first allErrors₁).isOk = true) (hok₂ : (file₂.parse second allErrors₂).isOk = true) :
    let r₁ := file₁.parse first allErrors₁
    let r₂ := file₂.parse second allErrors₂
    let r := file.parse (first ++ "\n" ++ second) true
    r.file.stmts.map Stmt.sexp = r₁.file.stmts.map Stmt.sexp ++ r₂.file.stmts.map Stmt.sexp ∧
      (∀ e ∈ r.errors, ∃ pos fault, e = ParseError.ofFault file pos fault ∧ fault.IsClash) ∧
      r.objects = r₁.objects ++
        r₂.objects.map (Object.moved (first.utf8ByteSize + 1) (numberAfter 0 r₁.file.stmts) r₁.objects.length) ∧
      ((∀ name ∈ declaredIn (r₁.file.stmts.flatMap Stmt.entries),
          name ∉ declaredIn (r₂.file.stmts.flatMap Stmt.entries) ∧
            ∀ x ∈ r₂.file.stmts.flatMap Stmt.entries, x.spec.typeName? ≠ some name) →
        r.errors = []) := by
  intro r₁ r₂ r
  have hfits := fits_of_ofText hfile
  obtain rfl := base_ofText hfile
  obtain ⟨hlexed, m, m', made, made', hmeets⟩ :=
    parse_meets (base_ofText hfile₁) (base_ofText hfile₂) hbase hfits hok₁ hok₂
  have hfirst : (firstState file _ true).findings = [] := findings_firstState_of_lexed hlexed
  let last := lastState file (first ++ "\n" ++ second) true
  have hmade : r.file.stmts = made ++ made' := hmeets.stmts
  obtain ⟨hsame, hall⟩ : last.file = file ∧ last.allErrors = true := settings_lastState _ _ _
  have hentries := entries_joined hmeets.same
  have hentries' := entries_joined hmeets.same'
  refine ⟨?_, fun e he => ?_, ?_, fun hapart => ?_⟩
  · rw [hmade, List.map_append, sexps_joined hmeets.same, sexps_joined hmeets.same']
  · obtain ⟨f, hf, rfl⟩ := mem_errors_result.mp he
    exact ⟨f.pos, f.fault, congrArg (ParseError.ofFault · f.pos f.fault) hsame, hmeets.clashes f hf⟩
  · have hobjects := objects_lastState hfirst (.inl rfl)
    rw [hmade, List.flatMap_append, sitesOf_append, List.mapIdx_append] at hobjects
    have hfirst := objects_joined hentries 0
    have hlength : r₁.objects.length = (sitesOf (made.flatMap Stmt.entries)).length := by
      rw [objects_of_isOk hok₁, List.length_mapIdx, (forall₂_sitesOf hentries).length_eq]
    rw [hmeets.bytes, hmeets.ids, List.map_congr_left fun o _ => o.moved_zero, List.map_id',
      ← objects_of_isOk hok₁] at hfirst
    have hsecond := objects_joined hentries' (sitesOf (made.flatMap Stmt.entries)).length
    rw [← objects_of_isOk hok₂, hmeets.bytes', hmeets.ids', ← Text.utf8ByteSize_eq, ← hlength] at hsecond
    rw [hobjects, ← hlength, hsecond]
    exact congrArg (· ++ _) hfirst
  · have hadmissible := allAdmissible_apart (parse_sound hok₁).2.2.2 (parse_sound hok₂).2.2.2 hapart
    obtain ⟨hkept, hkept'⟩ := allAdmissible_append.mp hadmissible
    have hboth : AllAdmissible [] (last.stmts.flatMap Stmt.entries) := by
      rw [hmeets.stmts, List.flatMap_append]
      refine allAdmissible_append.mpr ⟨allAdmissible_joined hentries hkept, ?_⟩
      rw [declaredIn_joined hentries]
      exact allAdmissible_joined hentries' hkept'
    have hnone := (follows_lastState hfirst (.inl rfl)).findings_eq_nil hall hmeets.clashes hboth
    exact List.isEmpty_iff.mp ((isOk_parse _ _ _).mpr hnone)

/-- The second text knows the name of the first one, whose comment ends with its line. -/
theorem SourceFile.parse_append_known :
    ∃ file₁ file₂ file, ofText "a" 3 "let é int = 1 // one" = .ok file₁ ∧
      ofText "b" 3 "var x = -é; const y string = x" = .ok file₂ ∧
      ofText "c" 3 ("let é int = 1 // one" ++ "\n" ++ "var x = -é; const y string = x") = .ok file ∧
      (file₁.parse "let é int = 1 // one" false).isOk = true ∧
      (file₂.parse "var x = -é; const y string = x" false).isOk = true ∧
      (file.parse ("let é int = 1 // one" ++ "\n" ++ "var x = -é; const y string = x") true).errors = [] ∧
      (file.parse ("let é int = 1 // one" ++ "\n" ++ "var x = -é; const y string = x") true).objects =
        [⟨0, "é", .const, 4, 0, ⟨7⟩⟩] ++
          [⟨0, "x", .var, 4, 0, ⟨7⟩⟩, ⟨1, "y", .const, 12, 0, ⟨22⟩⟩].map (Object.moved 22 7 1) := by
  let first := "let é int = 1 // one"
  let second := "var x = -é; const y string = x"
  let file₁ : SourceFile := ⟨"a", 3, first.utf8ByteSize, LineMap.ofText first⟩
  let file₂ : SourceFile := ⟨"b", 3, second.utf8ByteSize, LineMap.ofText second⟩
  let file : SourceFile :=
    ⟨"c", 3, (first ++ "\n" ++ second).utf8ByteSize, LineMap.ofText (first ++ "\n" ++ second)⟩
  have hfile₁ : ofText "a" 3 first = .ok file₁ := rfl
  have hfile₂ : ofText "b" 3 second = .ok file₂ := rfl
  have hfile : ofText "c" 3 (first ++ "\n" ++ second) = .ok file := rfl
  have hok₁ : (file₁.parse first false).isOk = true := by decide +kernel
  have hok₂ : (file₂.parse second false).isOk = true := by decide +kernel
  obtain ⟨-, -, hobjects, hnone⟩ := parse_append (by decide) hfile₁ hfile₂ hfile hok₁ hok₂
  have hobjects₁ : (file₁.parse first false).objects = [⟨0, "é", .const, 4, 0, ⟨7⟩⟩] := by decide +kernel
  have hobjects₂ : (file₂.parse second false).objects =
      [⟨0, "x", .var, 4, 0, ⟨7⟩⟩, ⟨1, "y", .const, 12, 0, ⟨22⟩⟩] := by decide +kernel
  have hnumbers : numberAfter 0 (file₁.parse first false).file.stmts = 7 := by decide +kernel
  have hbytes : first.utf8ByteSize + 1 = 22 := by decide +kernel
  refine ⟨file₁, file₂, file, hfile₁, hfile₂, hfile, hok₁, hok₂, hnone (by decide +kernel), ?_⟩
  rw [hobjects₁, hobjects₂, hnumbers, hbytes] at hobjects
  exact hobjects

end RoseLang
