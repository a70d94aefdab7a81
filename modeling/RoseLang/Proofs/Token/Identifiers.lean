import Mathlib.Data.List.TakeWhile
import RoseLang.Proofs.Token.Cuts
import RoseLang.Proofs.Token.Scanning

/-!
# Identifiers are what is read as names

Whether a word may name something is told in two ways: by a test of its characters and a table of keywords, and by
reading it as a program text. The two agree, operator words included: a text that consists of one word is one piece,
and its kind is looked up in the same words.
-/

namespace RoseLang

open Text

/-- The kinds of words that are no keywords. -/
def Kind.names : List Kind := .ident :: operatorWords

namespace Word

theorem kind_spelling {k : Kind} (hk : k ∈ Kind.keywords) : kind k.spelling = k := by
  have hall : ∀ k ∈ Kind.keywords, kind k.spelling = k := by decide
  exact hall k hk

theorem isKeyword_iff {word : String} : isKeyword word = true ↔ kind word ∈ Kind.keywords := by
  rw [isKeyword, List.any_eq_true]
  constructor
  · rintro ⟨k, hk, hspelling⟩
    rw [← of_decide_eq_true hspelling, kind_spelling hk]
    exact hk
  · intro hmem
    have hne : kind word ≠ .ident := by
      intro hident
      rw [hident] at hmem
      revert hmem
      decide
    exact ⟨kind word, hmem, decide_eq_true (spelling_kind hne)⟩

theorem kind_mem_names_iff {word : String} : kind word ∈ Kind.names ↔ isKeyword word = false := by
  have hdisjoint : ∀ k ∈ Kind.names, k ∉ Kind.keywords := by decide
  rw [← Bool.not_eq_true, isKeyword_iff]
  constructor
  · exact hdisjoint _
  · intro hnot
    rcases List.mem_cons.mp (kind_mem word) with hident | hmem
    · rw [hident]
      exact List.mem_cons_self
    · exact List.mem_cons_of_mem _ ((List.mem_append.mp hmem).resolve_left hnot)

end Word

/-- A name that is one piece starts like a word and goes on like one. -/
theorem Piece.first_name_iff {c : Char} {cs : List Char} {kind : Kind} (hkind : kind ∈ Kind.names) :
    first c cs = .token kind cs.length [] ↔
      Word.isStart c = true ∧ cs.all Word.isPart = true ∧ Word.kind (String.ofList (c :: cs)) = kind := by
  have hliteral : ∀ k : LiteralKind, k.token ∉ Kind.names := by
    intro k
    cases k <;> decide
  have hsign : ∀ k ∈ Kind.signs, k ∉ Kind.names := by decide
  constructor
  · intro h
    have hfirst := isFirst_first c cs
    generalize first c cs = p at h hfirst
    cases hfirst with
    | blank | line | lineComment | blockComment | points | illegal => cases h
    | number | fraction | char | string | raw =>
      obtain ⟨rfl, -⟩ := ofLiteral_eq_token.mp h
      exact absurd hkind (hliteral _)
    | sign hc hcomment hpoint hsome =>
      obtain ⟨rfl, -⟩ := token.inj h
      exact absurd hkind (hsign _ (Sign.mem_of_kind? hsome))
    | word hc =>
      obtain ⟨hword, hlength, -⟩ := token.inj h
      have hwhole : cs.takeWhile Word.isPart = cs := (List.takeWhile_prefix _).eq_of_length hlength
      rw [hwhole] at hword
      exact ⟨hc, List.all_eq_true.mpr (List.takeWhile_eq_self_iff.mp hwhole), hword⟩
  · rintro ⟨hc, hcs, rfl⟩
    have hwhole : cs.takeWhile Word.isPart = cs := List.takeWhile_eq_self_iff.mpr (List.all_eq_true.mp hcs)
    have hword : IsFirst c cs _ := .word hc
    have hfirst := hword.first_eq
    rwa [hwhole] at hfirst

theorem Word.isIdentifier_iff_isToken {word : String} :
    isIdentifier word = true ↔ ∃ kind ∈ Kind.names, IsToken word kind := by
  rw [isIdentifier]
  cases hword : word.toList with
  | nil => simp [IsToken, hword]
  | cons c cs =>
    have hsame : String.ofList (c :: cs) = word := by rw [← hword, String.ofList_toList]
    have hnames : (!isKeyword word) = true ↔ kind word ∈ Kind.names := by
      rw [kind_mem_names_iff, Bool.not_eq_true']
    rw [Bool.and_eq_true, Bool.and_eq_true, hnames]
    constructor
    · rintro ⟨⟨hc, hcs⟩, hkind⟩
      exact ⟨kind word, hkind, c, cs, hword, (Piece.first_name_iff hkind).mpr ⟨hc, hcs, congrArg kind hsame⟩⟩
    · rintro ⟨k, hk, d, ds, htext, hfirst⟩
      obtain ⟨rfl, rfl⟩ := List.cons.inj (hword.symm.trans htext)
      obtain ⟨hc, hcs, rfl⟩ := (Piece.first_name_iff hk).mp hfirst
      rw [hsame] at hk
      exact ⟨⟨hc, hcs⟩, hk⟩

/-- A text that is a name on its own is read as that name, and has no fault. -/
theorem IsToken.head_tokenize {text : String} {kind : Kind} (h : IsToken text kind)
    (hkind : kind.isWordOrLiteral = true) :
    (Lexer.ofText text ⟨1⟩).tokenize.2 = [] ∧
      ∃ t ts, (Lexer.ofText text ⟨1⟩).tokenize.1 = t :: ts ∧ t.kind = kind ∧ t.text = text := by
  have heof : kind ≠ .eof := by
    rintro rfl
    cases hkind
  obtain ⟨t, offset, hscans, ht, htext⟩ := h.scans delimits_nil heof ⟨1⟩ 0 false
  rw [if_pos (Kind.keepsText_of_isWordOrLiteral hkind)] at htext
  rw [Scans, List.append_nil] at hscans
  have hlexemes : (Lexer.ofText text ⟨1⟩).lexemes = _ := hscans
  -- Behind the word there is at most a terminator, which has no fault.
  have hend := Lexer.tokenize_of_nil (l := Lexer.clean ⟨1⟩ offset [] kind.endsStatement) rfl
  have hclean : (Lexer.clean ⟨1⟩ offset [] kind.endsStatement).lexemes.flatMap Lexeme.errors = [] :=
    congrArg Prod.snd hend
  rw [Lexer.tokenize, hlexemes]
  refine ⟨?_, t, _, rfl, ht, htext⟩
  rw [List.flatMap_append, hclean]
  rfl

/-- A word may name something exactly if, read as a text, it is without a fault and starts with a name that is all
of it. -/
theorem Lexer.tokenize_identifier (word : String) :
    Word.isIdentifier word = true ↔
      (ofText word ⟨1⟩).tokenize.2 = [] ∧
        ∃ t ts, (ofText word ⟨1⟩).tokenize.1 = t :: ts ∧
          t.kind ∈ [.ident, .logicalAnd, .logicalOr, .not] ∧ t.text = word := by
  have hwords : ∀ k ∈ Kind.names, k.isWordOrLiteral = true := by decide
  rw [Word.isIdentifier_iff_isToken]
  constructor
  · rintro ⟨kind, hkind, htoken⟩
    obtain ⟨hclean, t, ts, htokens, rfl, htext⟩ := htoken.head_tokenize (hwords kind hkind)
    exact ⟨hclean, t, ts, htokens, hkind, htext⟩
  · rintro ⟨hclean, t, ts, htokens, hkind, htext⟩
    refine ⟨t.kind, hkind, isToken_of_head (hwords t.kind hkind) hclean ?_⟩
    rw [htokens, List.head?_cons, Option.map_some, htext]

end RoseLang
