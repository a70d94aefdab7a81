import RoseLang.Token.QuotedLiteral
import RoseLang.Token.Sign
import RoseLang.Token.Word

/-!
# Pieces of a source text

A source text is a sequence of pieces: tokens, and gaps of blanks, comments and characters that belong
to no token. What a piece is depends on its own characters and those after it, never on what came
before.
-/

namespace RoseLang

/-- A piece of the text and the number of its characters after the first one. A gap `breaks` the line
if it contains a line feed, and its fault, if any, covers all of it. -/
inductive Piece where
  | gap (more : Nat) (breaks : Bool) (fault : Option LexicalFault)
  | token (kind : Kind) (more : Nat) (faults : List FaultAt)
  deriving DecidableEq, Repr

namespace Piece

def ofLiteral (s : LiteralScan) : Piece := .token s.kind.token s.more s.faults

/-- The length of a block comment after its opening, and whether it is closed. -/
def commentLength : List Char → Nat × Bool
  | [] => (0, false)
  | c :: cs =>
    if c = '*' ∧ cs.head? = some '/' then (2, true)
    else
      let (length, closed) := commentLength cs
      (length + 1, closed)

/-- The block comment whose opening slash and star have been read. -/
def blockComment (cs : List Char) : Piece :=
  let (length, closed) := commentLength cs
  .gap (1 + length) ((cs.take length).contains '\n') (if closed then none else some .openComment)

/-- The piece that starts with `c` and goes on in `cs`. -/
def first (c : Char) (cs : List Char) : Piece :=
  if c = ' ' ∨ c = '\t' ∨ c = '\r' then .gap 0 false none
  else if c = '\n' then .gap 0 true none
  else if Word.isStart c then
    let more := cs.takeWhile Word.isPart
    .token (Word.kind (String.ofList (c :: more))) more.length []
  else if Number.isDigit .decimal c then ofLiteral (Number.scan c cs)
  else if c = '\x27' then ofLiteral (QuotedLiteral.scan .char c cs)
  else if c = '\x22' then ofLiteral (QuotedLiteral.scan .string c cs)
  else if c = '\x60' then ofLiteral (QuotedLiteral.scanRaw cs)
  else if c = '/' ∧ cs.head? = some '/' then .gap (cs.takeWhile (· ≠ '\n')).length false none
  else if c = '/' ∧ cs.head? = some '*' then blockComment (cs.drop 1)
  else if c = '.' ∧ cs.head?.any (Number.isDigit .decimal) then ofLiteral (Number.scanFraction cs)
  else
    match Sign.kind? c cs with
    | some kind => .token kind (kind.spelling.length - 1) []
    | none =>
      if c = '.' then .gap 1 false (some .doubleDot) else .gap 0 false (some (.illegalCharacter c))

end Piece

end RoseLang
