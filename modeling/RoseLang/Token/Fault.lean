import RoseLang.Source.Pos
import RoseLang.Text.Blank
import RoseLang.Text.Format

/-!
# Lexical faults

What can be wrong with the characters of a token or between tokens, each with its message.
-/

namespace RoseLang

/-- The radix of the digits of a number. -/
inductive Radix where
  | binary
  | octal
  | decimal
  | hexadecimal
  deriving DecidableEq, Repr

namespace Radix

def value : Radix → Nat
  | binary => 2
  | octal => 8
  | decimal => 10
  | hexadecimal => 16

def name : Radix → String
  | binary => "binary"
  | octal => "octal"
  | decimal => "decimal"
  | hexadecimal => "hexadecimal"

end Radix

inductive LexicalFault where
  | illegalCharacter (c : Char)
  | doubleDot
  | openComment
  | noDigits (radix : Radix)
  | invalidDigit (digit : Char) (radix : Radix)
  | emptyExponent
  | openLiteral
  | charCount
  | openEscape
  | invalidEscape
  deriving DecidableEq, Repr

def LexicalFault.message : LexicalFault → String
  | illegalCharacter c =>
    let number := "illegal character U+" ++ Text.hexUpper 4 c.toNat
    if Text.isControl c then number else number ++ " '" ++ String.singleton c ++ "'"
  | doubleDot => "invalid token '..'"
  | openComment => "comment not terminated"
  | noDigits radix => radix.name ++ " literal has no digits"
  | invalidDigit digit radix =>
    "invalid digit '" ++ String.singleton digit ++ "' in " ++ radix.name ++ " literal"
  | emptyExponent => "exponent has no digits"
  | openLiteral => "literal not terminated"
  | charCount => "invalid char literal"
  | openEscape => "escape sequence not terminated"
  | invalidEscape => "invalid char escape"

/-- A fault of the bytes from `start` up to `stop`, counted from where the token starts. -/
structure FaultAt where
  start : Nat
  stop : Nat
  fault : LexicalFault
  deriving DecidableEq, Repr

/-- A lexical fault as it is reported. -/
structure LexError where
  span : Span
  message : String
  deriving DecidableEq, Repr, Inhabited

end RoseLang
