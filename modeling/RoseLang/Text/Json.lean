import RoseLang.Text.Format

/-!
# JSON text

JSON values and their indented text: one member or element a line, two spaces for each level, an empty
array or object in one piece. Strings keep every character but the quote, the backslash and the
characters below U+0020.
-/

namespace RoseLang.Text

inductive Json where
  | string (s : String)
  | number (n : Nat)
  | boolean (b : Bool)
  | array (elements : List Json)
  | object (members : List (String × Json))

namespace Json

/-- One character inside a JSON string. -/
def escape (c : Char) : String :=
  if c = '\x22' then "\\\""
  else if c = '\\' then "\\\\"
  else if c = '\x08' then "\\b"
  else if c = '\x0c' then "\\f"
  else if c = '\n' then "\\n"
  else if c = '\r' then "\\r"
  else if c = '\t' then "\\t"
  else if c.toNat < 0x20 then
    let digits := Nat.toDigits 16 c.toNat
    "\\u" ++ String.ofList (List.replicate (4 - digits.length) '0' ++ digits)
  else String.singleton c

def quote (s : String) : String :=
  "\"" ++ String.join (s.toList.map escape) ++ "\""

/-- A bracketed list of items, each on a line of its own inside the brackets. -/
def block (opening closing : String) (indent : Nat) (items : List String) : String :=
  if items.isEmpty then opening ++ closing
  else
    let line := "\n" ++ spaces (indent + 2)
    opening ++ line ++ String.intercalate ("," ++ line) items ++ "\n" ++ spaces indent ++ closing

mutual

/-- The text of a value whose first line stands at the given indentation. -/
def pretty (indent : Nat) : Json → String
  | .string s => quote s
  | .number n => toString n
  | .boolean b => if b then "true" else "false"
  | .array elements => block "[" "]" indent (prettyElements (indent + 2) elements)
  | .object members => block "\x7b" "\x7d" indent (prettyMembers (indent + 2) members)

def prettyElements (indent : Nat) : List Json → List String
  | [] => []
  | value :: more => pretty indent value :: prettyElements indent more

def prettyMembers (indent : Nat) : List (String × Json) → List String
  | [] => []
  | (key, value) :: more =>
    (quote key ++ ": " ++ pretty indent value) :: prettyMembers indent more

end

end Json

end RoseLang.Text
