import RoseLang.Source.Pos
import RoseLang.Token.Kind

/-!
# Tokens

A token keeps its text where the text says more than the kind: for words, literals and written
terminators. A terminator that stands for a line end has the text `"\n"`, one that stands for the end
of the input the empty text.
-/

namespace RoseLang

structure Token where
  kind : Kind
  span : Span
  text : String
  deriving DecidableEq, Repr, Inhabited

namespace Token

def pos (t : Token) : Pos := t.span.start

/-- Whether the token is a terminator that nobody wrote. -/
def isImplicitSemi (t : Token) : Bool := t.kind = .semi && t.text ≠ ";"

end Token

end RoseLang
