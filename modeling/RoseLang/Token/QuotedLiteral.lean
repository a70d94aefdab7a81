import RoseLang.Text.Utf8
import RoseLang.Token.Number

/-!
# Quoted literals

Character and string literals end at their closing quote, or unfinished before a line feed or the end
of the input. Between the quotes stand elements: single characters, and escapes that start with a
backslash. A malformed escape is reported and still counts as an element. A raw string has no escapes
and may span lines.
-/

namespace RoseLang.QuotedLiteral

/-- Up to `n` digits at the start of `cs`: how many there are, and the fault if there are fewer. -/
def escapeDigits (radix : Radix) : Nat → List Char → Nat × Option LexicalFault
  | 0, _ => (0, none)
  | _ + 1, [] => (0, some .openEscape)
  | n + 1, c :: cs =>
    if Number.isDigit radix c then
      let (length, fault) := escapeDigits radix n cs
      (length + 1, fault)
    else (0, some .invalidEscape)

/-- The characters that make an escape by themselves. -/
def simpleEscapes : List Char := ['a', 'b', 'f', 'n', 'r', 't', 'v', '\\', '\x27', '\x22']

/-- How many digits the escape letter asks for, all of them hexadecimal. -/
def hexEscape? (c : Char) : Option Nat :=
  if c = 'x' then some 2 else if c = 'u' then some 4 else if c = 'U' then some 8 else none

/-- The escape whose backslash has been read: how many characters follow the backslash, and what is
wrong with them. A line feed is left for the literal to end at. -/
def escape : List Char → Nat × Option LexicalFault
  | [] => (0, some .openEscape)
  | c :: cs =>
    if simpleEscapes.contains c then (1, none)
    else if Number.isDigit .octal c then escapeDigits .octal 3 (c :: cs)
    else
      match hexEscape? c with
      | some n =>
        let (length, fault) := escapeDigits .hexadecimal n cs
        (length + 1, fault)
      | none => if c = '\n' then (0, some .invalidEscape) else (1, some .invalidEscape)

/-- What follows an opening quote: the number of characters, the closing quote included if there is
one, the number of elements, and the faults of the escapes. -/
structure Body where
  length : Nat
  elements : Nat
  closed : Bool
  faults : List FaultAt
  deriving DecidableEq, Repr

/-- The body up to `quote`, where `offset` bytes of the literal have been read. -/
def body (quote : Char) (offset : Nat) : List Char → Body
  | [] => ⟨0, 0, false, []⟩
  | c :: cs =>
    if c = '\n' then ⟨0, 0, false, []⟩
    else if c = quote then ⟨1, 0, true, []⟩
    else if c = '\\' then
      let (length, fault) := escape cs
      let stop := offset + 1 + Text.utf8Length (cs.take length)
      let next := body quote stop (cs.drop length)
      ⟨1 + length + next.length, 1 + next.elements, next.closed,
        (fault.map (FaultAt.mk offset stop)).toList ++ next.faults⟩
    else
      let next := body quote (offset + c.utf8Size) cs
      ⟨1 + next.length, 1 + next.elements, next.closed, next.faults⟩
termination_by cs => cs.length
decreasing_by all_goals (simp only [List.length_drop, List.length_cons]; omega)

/-- The literal whose opening quote has been read. -/
def scan (kind : LiteralKind) (quote : Char) (cs : List Char) : LiteralScan :=
  let b := body quote 1 cs
  let fault :=
    if !b.closed then some LexicalFault.openLiteral
    else if kind = .char ∧ b.elements ≠ 1 then some .charCount
    else none
  ⟨kind, b.length,
    b.faults ++ (fault.map (FaultAt.mk 0 (1 + Text.utf8Length (cs.take b.length)))).toList⟩

/-- The raw string whose opening quote has been read. -/
def scanRaw (cs : List Char) : LiteralScan :=
  let inner := cs.takeWhile (· ≠ '\x60')
  if inner.length < cs.length then ⟨.rawString, inner.length + 1, []⟩
  else ⟨.rawString, inner.length, [⟨0, 1 + Text.utf8Length inner, .openLiteral⟩]⟩

end RoseLang.QuotedLiteral
