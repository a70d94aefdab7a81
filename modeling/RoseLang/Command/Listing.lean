import RoseLang.Source.File
import RoseLang.Text.Paint
import RoseLang.Text.Quoted
import RoseLang.Token.Basic

/-!
# Listings

The rows in which tokens, objects and unresolved names are listed, and the rows around them.
-/

namespace RoseLang.Command

open Text

/-- Begins a listing of `count` items. -/
def listingHead (title : String) (count : Nat) : Painted :=
  dimmed "===" ++ plain (" " ++ title ++ " (" ++ toString count ++ ") ") ++ dimmed "==="

/-- Ends a phase in which `errors` errors were found. -/
def verdict (phase : String) (errors : Nat) : Painted :=
  let message := match errors with
    | 0 => boldHued .green (phase ++ " OK")
    | 1 => boldHued .red (phase ++ " FAILED: 1 error")
    | n => boldHued .red (phase ++ " FAILED: " ++ toString n ++ " errors")
  dimmed "===" ++ plain " " ++ message ++ plain " " ++ dimmed "==="

/-- How a listing shows what a token says: a terminator that nobody wrote by what it stands for, a text
in quotes, and a sign as it is. -/
def tokenText (t : Token) : Painted :=
  if t.isImplicitSemi then dimmed (if t.text.isEmpty then "EOF" else "newline")
  else if t.kind = .eof then []
  else if t.text.isEmpty then plain t.kind.spelling
  else plain (quoted t.text)

def tokenRow (place : Position) (t : Token) : Painted :=
  plain (padLeft 4 (toString place.line) ++ ":" ++ padRight 3 (toString place.column) ++ " ")
    ++ hued .cyan (padRight 12 t.kind.name) ++ plain " " ++ tokenText t

def objectRow (kind name : String) (place : Position) : Painted :=
  hued .yellow (padRight 6 kind) ++ plain " " ++ bold (padRight 12 name) ++ plain " "
    ++ dimmed place.text

def unresolvedRow (name : String) (place : Position) : Painted :=
  bold (padRight 12 name) ++ plain " " ++ dimmed place.text

end RoseLang.Command
