import RoseLang.Text.Ranges

/-!
# Blank and control characters

Blank characters are those with the Unicode property `White_Space`; trimming removes them. They are
not the blanks of the language itself, which are the space, the tab and the carriage return. Control
characters are those of the general category `Cc`.
-/

namespace RoseLang.Text

/-- The closed ranges of blank code points, in increasing order. -/
def blankRanges : List (Nat × Nat) :=
  [(0x0009, 0x000D), (0x0020, 0x0020), (0x0085, 0x0085), (0x00A0, 0x00A0), (0x1680, 0x1680),
    (0x2000, 0x200A), (0x2028, 0x2029), (0x202F, 0x202F), (0x205F, 0x205F), (0x3000, 0x3000)]

/-- Whether the character is white space. -/
def isBlank (c : Char) : Bool :=
  inRanges blankRanges c.toNat

/-- Whether the character is a control character. -/
def isControl (c : Char) : Bool :=
  inRanges [(0x0000, 0x001F), (0x007F, 0x009F)] c.toNat

/-- The text without the blank characters at its two ends. -/
def trim (s : String) : String :=
  String.ofList (((s.toList.dropWhile isBlank).reverse.dropWhile isBlank).reverse)

theorem isBlank_of_isWhitespace {c : Char} (h : c.isWhitespace = true) : isBlank c = true := by
  simp only [Char.isWhitespace, Bool.or_eq_true, decide_eq_true_eq] at h
  rcases h with ((rfl | rfl) | rfl) | rfl <;> decide

end RoseLang.Text
