import RoseLang.Proofs.Parse.Layout.File
import RoseLang.Proofs.Parse.Sound.File
import RoseLang.Proofs.Token.Terminators

/-!
# Layout does not matter

Two texts with the same tokens may have their tokens at different places, on different lines and with different
comments between them. Places where tokens of the same number start correspond to each other. As the kinds and
the texts of tokens tell which of them start at the same place, these places are ordered in the same way, so the
texts are parsed alike.
-/

namespace RoseLang

/-- The tokens of the same number start at the two positions. -/
def Abreast (ts us : List Token) (p q : Pos) : Prop :=
  ∃ (n : Nat) (t u : Token), ts[n]? = some t ∧ us[n]? = some u ∧ p = t.pos ∧ q = u.pos

/-! ### The order of starts -/

/-- A terminator at the end of a text. -/
def Token.IsLast (t : Token) : Prop := t.kind = .semi ∧ t.text = ""

/-- How a token starts in front of one that comes after it: a terminator at the end of the text takes up no
place, so that what comes after it starts there too. -/
structure Token.Starts (t u : Token) : Prop where
  last : t.IsLast → t.pos.index = u.pos.index
  lt : ¬ t.IsLast → t.pos.index < u.pos.index

theorem Lexer.At.starts {base : Pos} {source before : List Char} {l : Lexer} (h : l.At base source before) :
    l.tokenize.1.Pairwise Token.Starts := by
  induction l using tokenize_induction generalizing before with
  | nil l hrest =>
    rw [tokenize_of_nil hrest]
    split
    · exact List.pairwise_pair.mpr ⟨fun _ => rfl, fun hlast => absurd ⟨rfl, rfl⟩ hlast⟩
    · exact List.pairwise_singleton _ _
  | gap l cs after fault l' hgap ih =>
    have hnext := h.advances hgap.toAdvances
    rw [hgap.tokenize]
    dsimp only
    split
    · refine List.pairwise_cons.mpr ⟨fun u hu => ⟨fun hlast => ?_, fun _ => ?_⟩, ih hnext⟩
      · exact absurd hlast.2 (show ¬ "\n" = "" by decide)
      · exact Nat.lt_of_lt_of_le (h.index_lt hgap.toAdvances) (hnext.steps.le_start u hu)
    · exact ih hnext
  | token l cs after t l' htoken ih =>
    have hnext := h.advances htoken.toAdvances
    have hpos : t.pos = l.pos := congrArg Span.start htoken.span
    rw [htoken.tokenize]
    refine List.pairwise_cons.mpr ⟨fun u hu => ⟨fun hlast => ?_, fun _ => ?_⟩, ih hnext⟩
    · have hwritten := htoken.written
      rw [Token.isImplicitSemi, hlast.1, hlast.2] at hwritten
      cases hwritten
    · rw [hpos]
      exact Nat.lt_of_lt_of_le (h.index_lt htoken.toAdvances) (hnext.steps.le_start u hu)

section
variable {ts us : List Token} {p q : Pos}

/-- Tokens of the same number are of the same kind and have the same text. -/
theorem isLast_iff (h : ts.map (fun t => (t.kind, t.text)) = us.map fun u => (u.kind, u.text)) {n : Nat} {t u : Token}
    (ht : ts[n]? = some t) (hu : us[n]? = some u) : t.IsLast ↔ u.IsLast := by
  have hsame := congrArg (·[n]?) h
  simp only [List.getElem?_map, ht, hu, Option.map_some, Option.some.injEq, Prod.mk.injEq] at hsame
  rw [Token.IsLast, Token.IsLast, hsame.1, hsame.2]

/-- The order of the starts of two tokens is known from which of them comes first. -/
theorem index_lt_iff (h : ts.Pairwise Token.Starts) {m n : Nat} {t t' : Token} (ht : ts[m]? = some t)
    (ht' : ts[n]? = some t') : t.pos.index < t'.pos.index ↔ m < n ∧ ¬ t.IsLast := by
  have hpair : ∀ {i j : Nat} {a b : Token}, i < j → ts[i]? = some a → ts[j]? = some b → a.Starts b := by
    intro i j a b hij ha hb
    obtain ⟨hi, rfl⟩ := List.getElem?_eq_some_iff.mp ha
    obtain ⟨hj, rfl⟩ := List.getElem?_eq_some_iff.mp hb
    exact List.pairwise_iff_getElem.mp h i j hi hj hij
  rcases Nat.lt_trichotomy m n with hlt | rfl | hgt
  -- a token that comes before another starts before it, unless it is the terminator at the end
  · have hstarts := hpair hlt ht ht'
    by_cases hlast : t.IsLast
    · simp [hlast, hstarts.last hlast]
    · simp [hlast, hlt, hstarts.lt hlast]
  · obtain rfl : t = t' := Option.some.inj (ht.symm.trans ht')
    simp
  · have hstarts := hpair hgt ht' ht
    have hle : t'.pos.index ≤ t.pos.index := by
      by_cases hlast : t'.IsLast
      · exact Nat.le_of_eq (hstarts.last hlast)
      · exact Nat.le_of_lt (hstarts.lt hlast)
    simp [Nat.not_lt.mpr hle, Nat.not_lt.mpr (Nat.le_of_lt hgt)]

theorem keepsOrder_abreast (h : ts.map (fun t => (t.kind, t.text)) = us.map fun u => (u.kind, u.text))
    (hts : ts.Pairwise Token.Starts) (hus : us.Pairwise Token.Starts) (hpos : ∀ t ∈ ts, 0 < t.pos.index)
    (hpos' : ∀ u ∈ us, 0 < u.pos.index) : KeepsOrder (Abreast ts us) where
  pos := by
    rintro _ _ ⟨n, t, u, ht, hu, rfl, rfl⟩
    exact ⟨hpos t (List.mem_of_getElem? ht), hpos' u (List.mem_of_getElem? hu)⟩
  lt_iff := by
    rintro _ _ _ _ ⟨m, t, u, ht, hu, rfl, rfl⟩ ⟨n, t', u', ht', hu', rfl, rfl⟩
    rw [index_lt_iff hts ht ht', index_lt_iff hus hu hu', isLast_iff h ht hu]

end

/-! ### Parses -/

theorem Lexer.pos_tokenize {source : String} {base : Nat} (h : 0 < base) :
    ∀ t ∈ (ofText source ⟨base⟩).tokenize.1, 0 < t.pos.index := by
  intro t ht
  obtain ⟨x, hx, rfl⟩ := List.mem_map.mp ht
  have hvalid := isValid_pos_lexemes (ofText source ⟨base⟩) (decide_eq_true (Nat.ne_of_gt h)) x hx
  exact Nat.pos_of_ne_zero (of_decide_eq_true hvalid)

/-- Without faults, what is alike of two texts with the same tokens is all of their tokens. -/
theorem Lexer.forall₂_lexemes {l l' : Lexer} (hclean : l.tokenize.2 = []) (hclean' : l'.tokenize.2 = [])
    (h : l.tokenize.1.map (fun t => (t.kind, t.text)) = l'.tokenize.1.map fun t => (t.kind, t.text)) :
    List.Forall₂ (Lexeme.Alike (Abreast l.tokenize.1 l'.tokenize.1)) l.lexemes l'.lexemes := by
  have hnone : ∀ {k : Lexer}, k.tokenize.2 = [] → ∀ x ∈ k.lexemes, x.errors = [] := fun hk =>
    List.flatMap_eq_nil_iff.mp (List.append_eq_nil_iff.mp hk).2
  have hlength : l.lexemes.length = l'.lexemes.length := by
    simpa [tokenize] using congrArg List.length h
  refine List.forall₂_iff_get.mpr ⟨hlength, fun n hn hn' => ?_⟩
  have hsame := congrArg (·[n]?) h
  have ht : l.tokenize.1[n]? = some l.lexemes[n].token := by simp [tokenize, hn]
  have hu : l'.tokenize.1[n]? = some l'.lexemes[n].token := by simp [tokenize, hn']
  simp only [List.getElem?_map, ht, hu, Option.map_some, Option.some.injEq, Prod.mk.injEq] at hsame
  refine ⟨⟨hsame.1, hsame.2, n, _, _, ht, hu, rfl, rfl⟩, ?_⟩
  rw [hnone hclean _ (List.get_mem _ _), hnone hclean' _ (List.get_mem _ _)]
  exact .nil

/-- Two texts without lexical faults that have the same tokens are parsed alike, wherever the tokens are: the
trees, the objects and the errors are the same but for their positions, and those are the starts of the same
tokens. -/
theorem SourceFile.parse_layout {name name' : String} {base base' : Nat} {source source' : String}
    {file file' : SourceFile} (hfile : ofText name base source = .ok file)
    (hfile' : ofText name' base' source' = .ok file') (hbase : 0 < base) (hbase' : 0 < base')
    (hclean : (Lexer.ofText source ⟨base⟩).tokenize.2 = []) (hclean' : (Lexer.ofText source' ⟨base'⟩).tokenize.2 = [])
    (htokens : (Lexer.ofText source ⟨base⟩).tokenize.1.map (fun t => (t.kind, t.text)) =
      (Lexer.ofText source' ⟨base'⟩).tokenize.1.map fun t => (t.kind, t.text)) :
    let P := Abreast (Lexer.ofText source ⟨base⟩).tokenize.1 (Lexer.ofText source' ⟨base'⟩).tokenize.1
    let r := file.parse source true
    let r' := file'.parse source' true
    r.file.stmts.map Stmt.sexp = r'.file.stmts.map Stmt.sexp ∧ r.Alike P (ParseError.Alike P) r' := by
  intro P r r'
  obtain rfl := base_ofText hfile
  obtain rfl := base_ofText hfile'
  have hP : KeepsOrder P :=
    keepsOrder_abreast htokens (Lexer.at_ofText (fits_of_ofText hfile)).starts
      (Lexer.at_ofText (fits_of_ofText hfile')).starts (Lexer.pos_tokenize hbase) (Lexer.pos_tokenize hbase')
  have halike : r.Alike P (ParseError.Alike P) r' :=
    parse_alike hP (Lexer.forall₂_lexemes hclean hclean' htokens) (.inl rfl) fun _ _ hf => hf.parseError hP
  exact ⟨map_eq_map_of_forall₂ halike.stmts Stmt.Alike.sexp, halike⟩

/-- A redeclaration on the line of the first declaration, and two lines further down. -/
theorem SourceFile.parse_layout_redeclared :
    ∃ file file', ofText "a" 1 "var x int; let x = 1" = .ok file ∧
      ofText "b" 40 "/* a */ var x int ;\n\n let x= 1 // ." = .ok file' ∧
      let r := file.parse "var x int; let x = 1" true
      let r' := file'.parse "/* a */ var x int ;\n\n let x= 1 // ." true
      r.errors.map ParseError.message = ["x redeclared in this block\n\tprevious declaration at a:1:5"] ∧
        r'.errors.map ParseError.message = ["x redeclared in this block\n\tprevious declaration at b:1:13"] ∧
        r.file.stmts.map Stmt.sexp = r'.file.stmts.map Stmt.sexp ∧
        ∃ P, r.Alike P (ParseError.Alike P) r' ∧ P ⟨16⟩ ⟨66⟩ := by
  let source := "var x int; let x = 1"
  let source' := "/* a */ var x int ;\n\n let x= 1 // ."
  let file : SourceFile := ⟨"a", 1, source.utf8ByteSize, LineMap.ofText source⟩
  let file' : SourceFile := ⟨"b", 40, source'.utf8ByteSize, LineMap.ofText source'⟩
  have hfile : ofText "a" 1 source = .ok file := rfl
  have hfile' : ofText "b" 40 source' = .ok file' := rfl
  obtain ⟨hsexps, halike⟩ := parse_layout hfile hfile' (by decide) (by decide) (by decide +kernel) (by decide +kernel)
    (by decide +kernel)
  have hname : Abreast (Lexer.ofText source ⟨1⟩).tokenize.1 (Lexer.ofText source' ⟨40⟩).tokenize.1 ⟨16⟩ ⟨66⟩ :=
    ⟨5, ⟨.ident, ⟨⟨16⟩, ⟨17⟩⟩, "x"⟩, ⟨.ident, ⟨⟨66⟩, ⟨67⟩⟩, "x"⟩, by decide +kernel, by decide +kernel, rfl, rfl⟩
  exact ⟨file, file', hfile, hfile', by decide +kernel, by decide +kernel, hsexps, _, halike, hname⟩

end RoseLang
