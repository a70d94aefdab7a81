import RoseLang.Source.Pos

/-!
# Diagnostics

A diagnostic is an error made ready for a reader: a message with labelled pieces of the source, notes
and help. Primary labels mark the place of the error, secondary ones places that have to do with it.
-/

namespace RoseLang

inductive LabelStyle where
  | primary
  | secondary
  deriving DecidableEq, Repr, Inhabited

def LabelStyle.name : LabelStyle → String
  | primary => "primary"
  | secondary => "secondary"

structure Label where
  span : Span
  style : LabelStyle
  message : Option String
  deriving DecidableEq, Repr, Inhabited

structure Diagnostic where
  code : Option String
  message : String
  labels : List Label
  notes : List String
  help : Option String
  deriving DecidableEq, Repr, Inhabited

namespace Diagnostic

/-- All diagnostics are errors. -/
def severity : String := "error"

/-- The span of the first primary label, or else of the first label. -/
def primarySpan? (d : Diagnostic) : Option Span :=
  ((d.labels.find? (·.style = .primary)).or d.labels.head?).map Label.span

end Diagnostic

end RoseLang
