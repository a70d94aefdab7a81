import RoseLang.Proofs.Diagnostic.Message

/-!
# Lexical errors of a parse

A parse that wants every fault reports the lexical errors that come of reading the tokens alone, in the order of
their positions, and the diagnostics of both agree.
-/

namespace RoseLang

/-- Two diagnostics with one label each, at the same place, that tell the same without notes and help. How far the
labels reach is left open. -/
structure Diagnostic.Agrees (d d' : Diagnostic) : Prop where
  code : d.code = d'.code
  message : d.message = d'.message
  labels : ∃ start stop stop' text, d.labels = [⟨⟨start, stop⟩, .primary, some text⟩] ∧
    d'.labels = [⟨⟨start, stop'⟩, .primary, some text⟩]
  notes : d.notes = [] ∧ d'.notes = []
  help : d.help = none ∧ d'.help = none

/-- The error of a parse for a fault of a token. -/
structure ParseError.Reports (file : SourceFile) (e : ParseError) (l : LexError) : Prop where
  pos : e.pos = l.span.start
  position : e.position = file.position l.span.start
  message : e.message = l.message
  diagnostic : e.toDiagnostic.Agrees l.toDiagnostic

theorem LexError.reports_ofFault (file : SourceFile) {l : LexError} (h : '\n' ∉ l.message.toList) :
    (ParseError.ofFault file l.span.start (.lexical l.message)).Reports file l := by
  let e := ParseError.ofFault file l.span.start (.lexical l.message)
  obtain ⟨hmessage, hnotes⟩ := (ParseError.toDiagnostic_eq_message_iff (e := e) rfl).mpr h
  have hlabels : e.toDiagnostic.labels =
      [⟨⟨l.span.start, l.span.start.advance 1⟩, .primary, some (lexicalLabel l.message)⟩] := by
    show [Label.mk (Span.ofLength l.span.start 1) .primary (some (lexicalLabel e.toDiagnostic.message))] = _
    rw [hmessage]
    rfl
  exact ⟨rfl, rfl, rfl, rfl, hmessage, ⟨_, _, _, _, hlabels, rfl⟩, ⟨hnotes, rfl⟩, ⟨rfl, rfl⟩⟩

namespace Parse

/-- Picking the lexical errors and sorting them comes to sorting the faults of the tokens. -/
theorem filter_lexical_result (s : State) :
    s.result.errors.filter (·.kind = .lexical) =
      ((lexical s.findings).map fun f => ParseError.ofFault s.file f.pos f.fault).mergeSort
        fun a b => a.pos.index ≤ b.pos.index := by
  rw [State.result, filter_mergeSort trans_of_index total_of_index, List.filter_map]
  rfl

theorem map_lexicalOf (file : SourceFile) (ls : List Lexeme) :
    (((lexicalOf ls).map fun f => ParseError.ofFault file f.pos f.fault).mergeSort
        fun a b => a.pos.index ≤ b.pos.index) =
      ((ls.flatMap Lexeme.errors).mergeSort fun a b => a.span.start.index ≤ b.span.start.index).map
        fun l => ParseError.ofFault file l.span.start (.lexical l.message) := by
  rw [lexicalOf, List.map_map]
  exact (List.map_mergeSort (f := fun l : LexError => ParseError.ofFault file l.span.start (.lexical l.message))
    fun _ _ _ _ => rfl).symm

end Parse

open Parse

/-- A parse that wants every fault reports the same lexical errors as the lexer, if the first token is faultless. -/
theorem SourceFile.parse_lexical (file : SourceFile) (source : String) :
    let lexer := Lexer.ofText source ⟨file.base⟩
    (∀ first ∈ lexer.lexemes.head?, first.errors = []) →
      List.Forall₂ (ParseError.Reports file) ((file.parse source true).errors.filter (·.kind = .lexical))
        (lexer.tokenize.2.mergeSort fun a b => a.span.start.index ≤ b.span.start.index) := by
  intro lexer hfirst
  let s := lastState file source true
  have hfile : s.file = file := (settings_lastState file source true).1
  have hlexical : lexical s.findings = lexicalOf lexer.lexemes := (accounted_lastState file source).2 hfirst
  show List.Forall₂ _ (s.result.errors.filter _) (List.mergeSort (lexer.lexemes.flatMap Lexeme.errors) _)
  rw [filter_lexical_result, hlexical, hfile, map_lexicalOf, List.forall₂_map_left_iff, List.forall₂_same]
  intro e he
  have hmem : e ∈ lexer.tokenize.2 := List.mem_mergeSort.mp he
  exact LexError.reports_ofFault file (lexer.newline_notMem_message (by simp [lexer, Lexer.ofText]) e hmem)

/-- The faults in a literal are met before the one of the whole literal, which starts before them. -/
theorem SourceFile.parse_lexical_literal :
    let source := "x '\\q\\q'"
    let file : SourceFile := ⟨"", 1, 8, .ofText source⟩
    let lexer := Lexer.ofText source ⟨1⟩
    (∀ first ∈ lexer.lexemes.head?, first.errors = []) ∧
      lexer.tokenize.2.map (fun l => (l.span.start.index, l.message)) =
        [(4, "invalid char escape"), (6, "invalid char escape"), (3, "invalid char literal")] ∧
      List.Forall₂ (ParseError.Reports file) ((file.parse source true).errors.filter (·.kind = .lexical))
        (lexer.tokenize.2.mergeSort fun a b => a.span.start.index ≤ b.span.start.index) := by
  intro source file lexer
  have hfirst : ∀ first ∈ lexer.lexemes.head?, first.errors = [] := by decide +kernel
  exact ⟨hfirst, by decide +kernel, SourceFile.parse_lexical file source hfirst⟩

end RoseLang
