import RoseLang.Token.Basic
import RoseLang.Token.Piece

/-!
# Tokens of a source text

A lexer reads a source text from left to right. A gap that breaks the line becomes a terminator if the
last token may end a statement, and so does the end of the input. Positions count from the base of the
text. The faults met are kept until someone takes them.
-/

namespace RoseLang

/-- Whether a token of the kind keeps its text: words, literals and written terminators do. -/
def Kind.keepsText (k : Kind) : Bool :=
  k.isLiteral || k.isKeyword || Kind.operatorWords.contains k || k = .semi

/-- A token with the faults that were met while it was read. -/
structure Lexeme where
  token : Token
  errors : List LexError
  deriving DecidableEq, Repr, Inhabited

/-- A source text read up to a byte offset. `pending` says that a line end there would be a
terminator. -/
structure Lexer where
  base : Pos
  offset : Nat
  rest : List Char
  pending : Bool
  errors : List LexError
  deriving DecidableEq, Repr

namespace Lexer

def ofText (source : String) (base : Pos) : Lexer := ⟨base, 0, source.toList, false, []⟩

/-- The position of the next character. -/
def pos (l : Lexer) : Pos := l.base.advance l.offset

/-- The lexer after the next `n` characters. -/
def skip (l : Lexer) (n : Nat) : Lexer :=
  { l with offset := l.offset + Text.utf8Length (l.rest.take n), rest := l.rest.drop n }

/-- Keeps the faults of a piece that starts at the next character. -/
def record (l : Lexer) (faults : List FaultAt) : Lexer :=
  { l with errors := l.errors ++ faults.map fun f =>
      ⟨⟨l.base.advance (l.offset + f.start), l.base.advance (l.offset + f.stop)⟩, f.fault.message⟩ }

/-- The next token and the lexer after it. At the end of the input this is the end token, again and
again. -/
def next (l : Lexer) : Token × Lexer :=
  match _h : l.rest with
  | [] =>
    (⟨if l.pending then .semi else .eof, ⟨l.pos, l.pos⟩, ""⟩, { l with pending := false })
  | c :: cs =>
    match Piece.first c cs with
    | .gap more breaks fault =>
      let l' := l.skip (more + 1)
      let width := l'.offset - l.offset
      let l' := { l' with errors := (l.record (fault.map (FaultAt.mk 0 width)).toList).errors }
      if breaks && l.pending then
        (⟨.semi, ⟨l.pos, l'.pos⟩, "\n"⟩, { l' with pending := false })
      else next l'
    | .token kind more faults =>
      let l' := l.skip (more + 1)
      let text := if kind.keepsText then String.ofList (l.rest.take (more + 1)) else ""
      (⟨kind, ⟨l.pos, l'.pos⟩, text⟩,
        { l' with pending := kind.endsStatement, errors := (l.record faults).errors })
termination_by l.rest.length
decreasing_by simp only [skip, _h, List.length_drop, List.length_cons]; omega

/-- The faults kept so far, and the lexer without them. -/
def takeErrors (l : Lexer) : List LexError × Lexer := (l.errors, { l with errors := [] })

/-- The next token with the faults met on the way to it. -/
def nextLexeme (l : Lexer) : Lexeme × Lexer :=
  let (token, l') := (l.takeErrors).2.next
  (⟨token, l'.errors⟩, l')

/-- What is left to read: every token but the end token uses some of it up. -/
def remaining (l : Lexer) : Nat := 2 * l.rest.length + l.pending.toNat

theorem remaining_next_lt (l : Lexer) (h : l.next.1.kind ≠ .eof) :
    l.next.2.remaining < l.remaining := by
  fun_induction next l with
  | case1 l hrest =>
    cases hp : l.pending <;> simp [remaining, hrest, hp] at h ⊢
  | case2 l c cs hrest more breaks fault hpiece l' width l'' hbreaks =>
    simp only [Bool.and_eq_true] at hbreaks
    simp only [remaining, l'', l', skip, hrest, List.length_drop, List.length_cons, hbreaks.2,
      Bool.toNat_false]
    omega
  | case3 l c cs hrest more breaks fault hpiece l' width l'' hbreaks ih =>
    refine Nat.lt_of_lt_of_le (ih h) ?_
    simp only [remaining, l'', l', skip, hrest, List.length_drop, List.length_cons]
    omega
  | case4 l c cs hrest kind more faults hpiece l' text =>
    have := Bool.toNat_le kind.endsStatement
    simp only [remaining, l', skip, hrest, List.length_drop, List.length_cons]
    omega

/-- All tokens from here on, each with its faults. The last one is the end token. -/
def lexemes (l : Lexer) : List Lexeme :=
  if _h : l.takeErrors.2.next.1.kind = .eof then [l.nextLexeme.1]
  else l.nextLexeme.1 :: lexemes l.nextLexeme.2
termination_by l.remaining
decreasing_by exact remaining_next_lt _ _h

/-- All tokens from here on, and all faults, those kept so far included. -/
def tokenize (l : Lexer) : List Token × List LexError :=
  let read := l.lexemes
  (read.map Lexeme.token, l.errors ++ read.flatMap Lexeme.errors)

/-- The lexer once all tokens have been read and all faults have been taken. -/
def finished (l : Lexer) : Lexer :=
  { l with offset := l.offset + Text.utf8Length l.rest, rest := [], pending := false, errors := [] }

end Lexer

end RoseLang
