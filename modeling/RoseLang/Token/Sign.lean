import RoseLang.Token.Kind

/-!
# Signs

The operators and delimiters that are not words. A sign is read as long as possible: each look at the
next character only ever extends it.
-/

namespace RoseLang.Sign

/-- `long` if an equals sign follows, else `short`. -/
def withAssign (short long : Kind) : List Char → Kind
  | '=' :: _ => long
  | _ => short

/-- The sign that starts with `c` and goes on in `cs`. Two points make no sign. -/
def kind? (c : Char) (cs : List Char) : Option Kind :=
  match c with
  | '+' => some <| match cs with
    | '+' :: _ => .inc
    | _ => withAssign .add .addAssign cs
  | '-' => some <| match cs with
    | '-' :: _ => .dec
    | _ => withAssign .sub .subAssign cs
  | '*' => some <| match cs with
    | '*' :: ds => withAssign .exp .expAssign ds
    | _ => withAssign .mul .mulAssign cs
  | '/' => some (withAssign .quo .quoAssign cs)
  | '%' => some (withAssign .rem .remAssign cs)
  | '&' => some <| match cs with
    | '^' :: ds => withAssign .andNot .andNotAssign ds
    | _ => withAssign .and .andAssign cs
  | '|' => some (withAssign .or .orAssign cs)
  | '^' => some (withAssign .xor .xorAssign cs)
  | '~' => some .invert
  | '<' => some <| match cs with
    | '<' :: ds => withAssign .shl .shlAssign ds
    | '-' :: _ => .arrow
    | _ => withAssign .less .lessEql cs
  | '>' => some <| match cs with
    | '>' :: ds => withAssign .shr .shrAssign ds
    | _ => withAssign .greater .greaterEql cs
  | '=' => some (withAssign .assign .eql cs)
  | '!' => some (withAssign .exclaim .notEql cs)
  | '.' =>
    match cs with
    | '.' :: '.' :: _ => some .ellipsis
    | '.' :: _ => none
    | _ => some .period
  | '(' => some .lparen
  | '[' => some .lbrack
  | '\x7b' => some .lbrace
  | ',' => some .comma
  | ')' => some .rparen
  | ']' => some .rbrack
  | '\x7d' => some .rbrace
  | ';' => some .semi
  | ':' => some .colon
  | '?' => some .question
  | _ => none

end RoseLang.Sign
