/-!
# Error codes

The codes that diagnostics carry, each with a title and a category.
-/

namespace RoseLang

structure ErrorCode where
  code : String
  title : String
  category : String
  deriving DecidableEq, Repr, Inhabited

namespace ErrorCode

/-- Illegal characters and malformed literals. -/
def lexical : ErrorCode := ⟨"E0001", "malformed token", "Lexical"⟩

/-- Unexpected and missing tokens. -/
def syntactic : ErrorCode := ⟨"E0100", "unexpected token", "Syntax"⟩

/-- Declarations that are wrong in themselves or among others. -/
def semantic : ErrorCode := ⟨"E0200", "invalid declaration", "Declaration"⟩

/-- All codes in order. -/
def all : List ErrorCode := [lexical, syntactic, semantic]

def find? (code : String) : Option ErrorCode := all.find? (·.code = code)

end ErrorCode

end RoseLang
