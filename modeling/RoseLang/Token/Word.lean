import RoseLang.Text.Alphabetic
import RoseLang.Text.Numeric
import RoseLang.Text.Uppercase
import RoseLang.Token.Kind

/-!
# Words

What a word of letters, digits and underscores is: a keyword, an operator word or an identifier.
-/

namespace RoseLang.Word

/-- Whether a word may start with the character. -/
def isStart (c : Char) : Bool := c = '_' || Text.isAlphabetic c

/-- Whether a word may go on with the character. -/
def isPart (c : Char) : Bool := c = '_' || Text.isAlphabetic c || Text.isNumeric c

/-- The kind of a word: its keyword or operator word if it is one, else an identifier. -/
def kind (word : String) : Kind :=
  ((Kind.keywords ++ Kind.operatorWords).find? (fun k => k.spelling = word)).getD .ident

/-- Operator words are not keywords. -/
def isKeyword (word : String) : Bool := Kind.keywords.any (fun k => k.spelling = word)

/-- Whether the word may name something. Operator words count as names here. -/
def isIdentifier (word : String) : Bool :=
  match word.toList with
  | [] => false
  | c :: cs => isStart c && cs.all isPart && !isKeyword word

/-- Whether the word starts with an upper-case letter. -/
def isExported (word : String) : Bool := word.toList.head?.any Text.isUppercase

end RoseLang.Word
