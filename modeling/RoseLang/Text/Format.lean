/-!
# Numbers and columns

Hexadecimal numerals, and texts widened to a column by spaces. Widths count characters.
-/

namespace RoseLang.Text

/-- The number in hexadecimal, with small letters. -/
def hex (n : Nat) : String :=
  String.ofList (Nat.toDigits 16 n)

/-- The number in hexadecimal, with capital letters and leading zeros up to `width` digits. -/
def hexUpper (width n : Nat) : String :=
  let digits := (Nat.toDigits 16 n).map Char.toUpper
  String.ofList (List.replicate (width - digits.length) '0' ++ digits)

/-- As many spaces as `n` says. -/
def spaces (n : Nat) : String :=
  String.ofList (List.replicate n ' ')

/-- The text with spaces before it, up to `width` characters. -/
def padLeft (width : Nat) (s : String) : String :=
  spaces (width - s.length) ++ s

/-- The text with spaces after it, up to `width` characters. -/
def padRight (width : Nat) (s : String) : String :=
  s ++ spaces (width - s.length)

end RoseLang.Text
