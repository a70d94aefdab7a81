import RoseLang.Diagnostic.Basic
import RoseLang.Diagnostic.Code
import RoseLang.Parse.Fault
import RoseLang.Text.Lines
import RoseLang.Token.Fault

/-!
# Diagnostics of errors

How lexical errors, errors of a parse and redeclarations become diagnostics. The first line of a message
is the headline, the lines after it become notes.
-/

namespace RoseLang

/-- What is said under the place of a lexical error with this message. -/
def lexicalLabel (message : String) : String :=
  if "illegal character".toList.isPrefixOf message.toList then "not valid here"
  else "malformed literal"

/-- What is said under the place of a semantic error with this message. -/
def semanticLabel (message : String) : String :=
  if "redeclared in this block".toList.isSuffixOf message.toList then "redeclared here"
  else if "is not a type".toList.isSuffixOf message.toList then "expected a type"
  else if message = "extra init expr" then "no name for this value"
  else "in this declaration"

def LexError.toDiagnostic (e : LexError) : Diagnostic where
  code := some ErrorCode.lexical.code
  message := e.message
  labels := [⟨e.span, .primary, some (lexicalLabel e.message)⟩]
  notes := []
  help := none

def Redeclaration.toDiagnostic (r : Redeclaration) : Diagnostic where
  code := some ErrorCode.semantic.code
  message := r.message
  labels :=
    ⟨.ofLength r.pos r.name.utf8ByteSize, .primary, some "redeclared here"⟩ ::
      (r.previous?.map fun first =>
        ⟨.ofLength first r.name.utf8ByteSize, .secondary, some "previous declaration here"⟩).toList
  notes := []
  help := some ("rename one of the \x60" ++ r.name ++ "\x60 declarations")

def ErrorKind.code : ErrorKind → ErrorCode
  | lexical => .lexical
  | syntactic => .syntactic
  | semantic => .semantic

/-- What is said under the place of an error of this kind whose headline is `headline`. -/
def ErrorKind.label (headline : String) : ErrorKind → String
  | lexical => lexicalLabel headline
  | syntactic => "here"
  | semantic => semanticLabel headline

def ParseError.toDiagnostic (e : ParseError) : Diagnostic :=
  match e.cause with
  | some cause => cause.toDiagnostic
  | none =>
    let lines := Text.lines e.message
    let headline := lines.headD ""
    { code := some e.kind.code.code
      message := headline
      labels := [⟨.ofLength e.pos 1, .primary, some (e.kind.label headline)⟩]
      notes := lines.tail.map Text.trim
      help := e.hint }

end RoseLang
