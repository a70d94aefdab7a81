import RoseLang.Proofs.Parse.Acceptance
import RoseLang.Proofs.Syntax.Printing

/-!
# Printing and parsing back

The source form of an expression, as the value of a variable, is parsed without an error, and the value is
the expression again but for numbers, positions and bindings. The expression has to be grouped as its source
form is read, and not nested too deeply, and its names and literals have to be read as such.
-/

namespace RoseLang

open Grammar Parse

/-- The declaration of a variable with a value, without numbers, positions and bindings. -/
def varDecl (name : String) (value : Expr) : Stmt :=
  .decl .dummy (.specs .dummy .varWord .none .none [⟨.dummy, [⟨.dummy, .none, name, .unbound⟩], none, [value]⟩] .none)

/-- The tokens of the declaration up to its value. -/
theorem scans_var (base : Pos) (tail : List Char) :
    ∃ k x a offset, Scans base 0 "var x = ".toList tail false [k, x, a] offset false ∧
      k.kind = .varWord ∧ x.kind = .ident ∧ x.text = "x" ∧ a.kind = .assign := by
  have hsource : "var x = ".toList =
      "var".toList ++ ([' '] ++ ("x".toList ++ ([' '] ++ ("=".toList ++ [' '])))) := by decide
  have hdelimits : ∀ cs, Delimits ([' '] ++ cs ++ tail) := fun cs => delimits_cons (.inl rfl)
  have hvar : IsToken "var" .varWord := isToken_of_test (by decide)
  have hx : IsToken "x" .ident := isToken_of_test (by decide)
  have hassign : IsToken "=" .assign := isToken_of_test (by decide)
  obtain ⟨k, offset₁, hscans₁, hk, -⟩ :=
    hvar.scans (hdelimits ("x".toList ++ ([' '] ++ ("=".toList ++ [' '])))) (by decide) base 0 false
  obtain ⟨x, offset₂, hscans₂, hxkind, hxtext⟩ :=
    hx.scans (hdelimits ("=".toList ++ [' '])) (by decide) base (offset₁ + 1) false
  obtain ⟨a, offset₃, hscans₃, ha, -⟩ :=
    hassign.scans (hdelimits []) (by decide) base (offset₂ + 1) true
  have hafter := (scans_space base offset₂ _ true).append (hscans₃.append (scans_space base offset₃ tail false))
  have hall := hscans₁.append ((scans_space base offset₁ _ false).append (hscans₂.append hafter))
  rw [← hsource] at hall
  exact ⟨k, x, a, _, hall, hk, hxkind, hxtext, ha⟩

/-- The declaration where its tokens stand. -/
def placedVar (k x : Token) (value : Expr) : Stmt :=
  .decl .dummy (.specs .dummy .varWord k.pos .none
    [⟨.dummy, [⟨.dummy, x.pos, x.text, .unbound⟩], none, [value]⟩] .none)

theorem erase_placedVar (k x : Token) (value : Expr) :
    (placedVar k x value).erase = varDecl x.text value.erase := rfl

/-- The tokens of the declaration are a file of the grammar, if those of the value are an expression. -/
theorem isFile_var {k x a semi : Token} {ts : List Token} {value : Expr} (hk : k.kind = .varWord)
    (hx : x.kind = .ident) (ha : a.kind = .assign) (hvalue : IsExpr .expr ts value) (hsemi : semi.kind = .semi) :
    IsFile ([k, x, a] ++ ts ++ [semi]) [placedVar k x value] := by
  have hspec : IsSpec ([x] ++ [] ++ (a :: ts))
      ⟨.dummy, [⟨.dummy, x.pos, x.text, .unbound⟩], none, [value]⟩ :=
    .mk (.one ⟨hx, rfl, rfl⟩) .none (.some ha (.one hvalue))
  have hkeyword : DeclKeyword.ofToken? k.kind = some .varWord := by rw [hk]; rfl
  have hdecl : IsDecl (k :: ([x] ++ [] ++ (a :: ts))) (.specs .dummy .varWord k.pos .none
      [⟨.dummy, [⟨.dummy, x.pos, x.text, .unbound⟩], none, [value]⟩] .none) := .spec hkeyword hspec
  have hstmt : IsStmt ([k, x, a] ++ ts ++ [semi]) (placedVar k x value) := .decl hdecl hsemi
  have hfile := IsFile.cons hstmt .nil
  rwa [List.append_nil] at hfile

theorem admissible_var (k : Token) {x : Token} (value : Expr) (hname : x.text ≠ Ident.blank) :
    AllAdmissible [] ([placedVar k x value].flatMap Stmt.entries) := by
  refine ⟨⟨rfl, ?_, ?_⟩, trivial⟩
  · rintro ⟨name, -, -, hmem⟩
    cases hmem
  · simp [Spec.declared, hname]

/-- Printing an expression and parsing it back gives the expression. -/
theorem parse_source {e : Expr} (hlegible : e.Legible) (hgrouped : e.Grouped)
    (hlevels : e.levels ≤ maxDepth) (hsize : ("var x = " ++ e.source).utf8ByteSize < Pos.last.index)
    (allErrors : Bool) :
    (parse ("var x = " ++ e.source) allErrors).isOk = true ∧
      (parse ("var x = " ++ e.source) allErrors).file.stmts.map Stmt.erase = [varDecl "x" e.erase] := by
  obtain ⟨file, hfile⟩ := SourceFile.ofText_one "" hsize
  obtain ⟨k, x, a, offset, hscansVar, hk, hx, hxtext, ha⟩ := scans_var ⟨file.base⟩ (e.source.toList ++ [])
  obtain ⟨placed, ts, offset', herase, hfit, hscans⟩ := hlegible.scansBack ⟨file.base⟩ offset false delimits_nil
  have hall := hscansVar.append hscans
  rw [← String.toList_append] at hall
  obtain ⟨semi, eof, hsemi, -, hlexemes⟩ := hall.lexemes_ofText
  have hexpr : IsExpr .expr ts placed := by
    have hplacedGrouped : placed.Grouped := by rwa [← Expr.grouped_erase, herase, Expr.grouped_erase]
    have hplacedComplete : placed.Complete := by
      rw [← Expr.complete_erase, herase, Expr.complete_erase]
      exact hlegible.complete
    exact (isExpr_of_fitAll hplacedGrouped hplacedComplete hfit).1
  have hclean : ∀ l ∈ (Lexer.ofText ("var x = " ++ e.source) ⟨file.base⟩).lexemes, l.errors = [] := by
    intro l hl
    rw [hlexemes] at hl
    obtain ⟨t, -, rfl⟩ := List.mem_map.mp hl
    rfl
  have htokens : ((Lexer.ofText ("var x = " ++ e.source) ⟨file.base⟩).lexemes.map Lexeme.token).dropLast =
      [k, x, a] ++ ts ++ [semi] := by
    have hsame : Lexeme.token ∘ (Lexeme.mk · []) = id := rfl
    have hsplit : [k, x, a] ++ ts ++ [semi, eof] = ([k, x, a] ++ ts ++ [semi]) ++ [eof] := by
      rw [List.append_assoc ([k, x, a] ++ ts)]
      rfl
    rw [hlexemes, List.map_map, hsame, List.map_id, hsplit, List.dropLast_concat]
  have hlevelsPlaced : placed.levels ≤ maxDepth := by rwa [← Expr.levels_erase, herase, Expr.levels_erase]
  have hlevelsMade : ∀ v ∈ [placedVar k x placed].flatMap Stmt.exprs, v.levels ≤ maxDepth :=
    List.forall_mem_singleton.mpr hlevelsPlaced
  have hname : x.text ≠ Ident.blank := by
    rw [hxtext]
    decide
  obtain ⟨hok, hstmts⟩ := SourceFile.parse_complete allErrors hclean
    (htokens ▸ isFile_var hk hx ha hexpr hsemi) hlevelsMade (admissible_var k placed hname)
  rw [parse, hfile]
  refine ⟨hok, hstmts.trans ?_⟩
  rw [List.map_singleton, erase_placedVar, herase, hxtext]

theorem parse_source_signs :
    (parse "var x = - -a ** 2" false).isOk = true ∧
      (parse "var x = - -a ** 2" false).file.stmts.map Stmt.erase =
        [varDecl "x" (.binary .dummy .exp .none
          (.unary .dummy .neg .none (.unary .dummy .neg .none (.ident .dummy ⟨.dummy, .none, "a", .unbound⟩)))
          (.literal .dummy ⟨.none, .int, "2"⟩))] := by
  let a : Expr := .ident .dummy ⟨.dummy, .none, "a", .unbound⟩
  let e : Expr := .binary .dummy .exp .none (.unary .dummy .neg .none (.unary .dummy .neg .none a))
    (.literal .dummy ⟨.none, .int, "2"⟩)
  have hsource : "var x = " ++ e.source = "var x = - -a ** 2" := by decide
  have hlegible : e.Legible := ⟨(by decide +kernel : LexesAs "a" .ident), (by decide +kernel : LexesAs "2" .int)⟩
  have hgrouped : e.Grouped :=
    ⟨BinaryOp.admitsLeft_of_none rfl, BinaryOp.admitsRight_of_none rfl, ⟨rfl, rfl, trivial⟩, trivial⟩
  have hresult := parse_source hlegible hgrouped (by decide) (by rw [hsource]; decide) false
  rwa [hsource] at hresult

end RoseLang
