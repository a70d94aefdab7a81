/-!
# Token kinds

The kinds of token with their spelling and their classes. A kind's `name` is its name in listings, its
`spelling` the text that stands for it in a program; kinds whose text varies are spelled by their class.
Operators and delimiters share one class, and the operator words `and`, `or` and `not` belong to it.
-/

namespace RoseLang

inductive Kind where
  | illegal
  | eof
  | comment
  | ident
  | int
  | float
  | char
  | string
  | rawString
  | add
  | sub
  | mul
  | quo
  | rem
  | exp
  | and
  | or
  | xor
  | invert
  | shl
  | shr
  | andNot
  | addAssign
  | subAssign
  | mulAssign
  | quoAssign
  | remAssign
  | expAssign
  | andAssign
  | orAssign
  | xorAssign
  | shlAssign
  | shrAssign
  | andNotAssign
  | logicalAnd
  | logicalOr
  | arrow
  | inc
  | dec
  | eql
  | less
  | greater
  | assign
  | not
  | notEql
  | lessEql
  | greaterEql
  | ellipsis
  | lparen
  | lbrack
  | lbrace
  | comma
  | period
  | rparen
  | rbrack
  | rbrace
  | semi
  | colon
  | question
  | exclaim
  | breakWord
  | constWord
  | continueWord
  | elseWord
  | fallthroughWord
  | fnWord
  | ifWord
  | letWord
  | returnWord
  | varWord
  deriving DecidableEq, Repr, Inhabited

namespace Kind

def special : List Kind := [illegal, eof, comment]

/-- Identifiers and literals: the kinds whose text varies. -/
def literals : List Kind := [ident, int, float, char, string, rawString]

def operatorWords : List Kind := [logicalAnd, logicalOr, not]

def assignOperators : List Kind :=
  [assign, addAssign, subAssign, mulAssign, quoAssign, remAssign, expAssign, andAssign, orAssign,
    xorAssign, shlAssign, shrAssign, andNotAssign]

/-- Operators and delimiters that are written in signs. -/
def signs : List Kind :=
  [add, sub, mul, quo, rem, exp, and, or, xor, invert, shl, shr, andNot, arrow, inc, dec, eql, less,
    greater, notEql, lessEql, greaterEql, ellipsis, lparen, lbrack, lbrace, comma, period, rparen,
    rbrack, rbrace, semi, colon, question, exclaim] ++ assignOperators

def keywords : List Kind :=
  [breakWord, constWord, continueWord, elseWord, fallthroughWord, fnWord, ifWord, letWord, returnWord,
    varWord]

def all : List Kind := special ++ literals ++ signs ++ operatorWords ++ keywords

def name : Kind → String
  | illegal => "Illegal"
  | eof => "Eof"
  | comment => "Comment"
  | ident => "Ident"
  | int => "Int"
  | float => "Float"
  | char => "Char"
  | string => "String"
  | rawString => "RawString"
  | add => "Add"
  | sub => "Sub"
  | mul => "Mul"
  | quo => "Quo"
  | rem => "Rem"
  | exp => "Exp"
  | and => "And"
  | or => "Or"
  | xor => "Xor"
  | invert => "Invert"
  | shl => "Shl"
  | shr => "Shr"
  | andNot => "AndNot"
  | addAssign => "AddAssign"
  | subAssign => "SubAssign"
  | mulAssign => "MulAssign"
  | quoAssign => "QuoAssign"
  | remAssign => "RemAssign"
  | expAssign => "ExpAssign"
  | andAssign => "AndAssign"
  | orAssign => "OrAssign"
  | xorAssign => "XorAssign"
  | shlAssign => "ShlAssign"
  | shrAssign => "ShrAssign"
  | andNotAssign => "AndNotAssign"
  | logicalAnd => "LAnd"
  | logicalOr => "LOr"
  | arrow => "Arrow"
  | inc => "Inc"
  | dec => "Dec"
  | eql => "Eql"
  | less => "Lss"
  | greater => "Gtr"
  | assign => "Assign"
  | not => "Not"
  | notEql => "Neq"
  | lessEql => "Leq"
  | greaterEql => "Geq"
  | ellipsis => "Ellipsis"
  | lparen => "LParen"
  | lbrack => "LBrack"
  | lbrace => "LBrace"
  | comma => "Comma"
  | period => "Period"
  | rparen => "RParen"
  | rbrack => "RBrack"
  | rbrace => "RBrace"
  | semi => "Semi"
  | colon => "Colon"
  | question => "Question"
  | exclaim => "Exclaim"
  | breakWord => "Break"
  | constWord => "Const"
  | continueWord => "Continue"
  | elseWord => "Else"
  | fallthroughWord => "Fallthrough"
  | fnWord => "Fn"
  | ifWord => "If"
  | letWord => "Let"
  | returnWord => "Return"
  | varWord => "Var"

def spelling : Kind → String
  | illegal => "ILLEGAL"
  | eof => "EOF"
  | comment => "COMMENT"
  | ident => "IDENT"
  | int => "INT"
  | float => "FLOAT"
  | char => "CHAR"
  | string => "STRING"
  | rawString => "RAW_STRING"
  | add => "+"
  | sub => "-"
  | mul => "*"
  | quo => "/"
  | rem => "%"
  | exp => "**"
  | and => "&"
  | or => "|"
  | xor => "^"
  | invert => "~"
  | shl => "<<"
  | shr => ">>"
  | andNot => "&^"
  | addAssign => "+="
  | subAssign => "-="
  | mulAssign => "*="
  | quoAssign => "/="
  | remAssign => "%="
  | expAssign => "**="
  | andAssign => "&="
  | orAssign => "|="
  | xorAssign => "^="
  | shlAssign => "<<="
  | shrAssign => ">>="
  | andNotAssign => "&^="
  | logicalAnd => "and"
  | logicalOr => "or"
  | arrow => "<-"
  | inc => "++"
  | dec => "--"
  | eql => "=="
  | less => "<"
  | greater => ">"
  | assign => "="
  | not => "not"
  | notEql => "!="
  | lessEql => "<="
  | greaterEql => ">="
  | ellipsis => "..."
  | lparen => "("
  | lbrack => "["
  | lbrace => "\x7b"
  | comma => ","
  | period => "."
  | rparen => ")"
  | rbrack => "]"
  | rbrace => "\x7d"
  | semi => ";"
  | colon => ":"
  | question => "?"
  | exclaim => "!"
  | breakWord => "break"
  | constWord => "const"
  | continueWord => "continue"
  | elseWord => "else"
  | fallthroughWord => "fallthrough"
  | fnWord => "fn"
  | ifWord => "if"
  | letWord => "let"
  | returnWord => "return"
  | varWord => "var"

def ofName? (name : String) : Option Kind := all.find? (fun k => k.name = name)

def isLiteral (k : Kind) : Bool := literals.contains k

def isOperator (k : Kind) : Bool := signs.contains k || operatorWords.contains k

def isKeyword (k : Kind) : Bool := keywords.contains k

def isAssignOperator (k : Kind) : Bool := assignOperators.contains k

/-- How tightly a binary operator binds; 0 for a kind that is none. -/
def precedence : Kind → Nat
  | logicalOr => 1
  | logicalAnd => 2
  | eql | notEql | less | lessEql | greater | greaterEql => 3
  | add | sub | or | xor => 4
  | mul | quo | rem | shl | shr | and | andNot => 5
  | exp => 6
  | _ => 0

/-- Exponentiation alone groups to the right. -/
def isRightAssociative (k : Kind) : Bool := k = exp

/-- Whether a token of this kind may be the last one of a statement, so that a line end after it stands
for a terminator. -/
def endsStatement : Kind → Bool
  | ident | int | float | char | string | rawString | rparen | rbrack | rbrace | inc | dec
  | breakWord | continueWord | fallthroughWord | returnWord => true
  | _ => false

theorem mem_all (k : Kind) : k ∈ all := by cases k <;> decide

end Kind

end RoseLang
