import RoseLang.Text.Format
import RoseLang.Text.Hidden

/-!
# Quoted text

A text between double quotes, with every character that would not be seen, or would be mistaken,
written as an escape.
-/

namespace RoseLang.Text

/-- One character inside a quoted text. -/
def escapeChar (c : Char) : String :=
  if c = '\x00' then "\\0"
  else if c = '\t' then "\\t"
  else if c = '\n' then "\\n"
  else if c = '\r' then "\\r"
  else if c = '\x22' then "\\\""
  else if c = '\\' then "\\\\"
  else if isHidden c then "\\u\x7b" ++ hex c.toNat ++ "\x7d"
  else String.singleton c

/-- The text between double quotes. -/
def quoted (s : String) : String :=
  "\"" ++ String.join (s.toList.map escapeChar) ++ "\""

end RoseLang.Text
