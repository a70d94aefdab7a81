import RoseLang.Diagnostic.Basic
import RoseLang.Diagnostic.Code
import RoseLang.Source.File
import RoseLang.Text.Json

/-!
# Diagnostic reports

The form of diagnostics for a program: one JSON object for a run over a file, in which every place is
given by line, column and byte offset. What is not known is left out.
-/

namespace RoseLang

open Text

/-- A line and column, both from 1, and the byte offset. -/
structure LineColumn where
  line : Nat
  column : Nat
  offset : Nat
  deriving DecidableEq, Repr

/-- The place of an error together with the text of its line. -/
structure Location where
  place : LineColumn
  sourceLine : String
  deriving DecidableEq, Repr

structure ReportLabel where
  role : String
  message : Option String
  start : LineColumn
  stop : LineColumn
  deriving DecidableEq, Repr

structure ReportEntry where
  severity : String
  code : Option String
  category : Option String
  message : String
  location : Option Location
  labels : List ReportLabel
  notes : List String
  help : Option String
  deriving DecidableEq, Repr

/-- What one phase found in one file. -/
structure Report where
  version : Nat
  file : String
  success : Bool
  phase : String
  diagnostics : List ReportEntry
  errorCount : Nat
  deriving DecidableEq, Repr

namespace Report

def ofPosition (p : Position) : LineColumn := ⟨p.line, p.column, p.offset⟩

/-- The place of a position; one outside the file stands for the nearest end of it. -/
def lineColumn (file : SourceFile) (p : Pos) : LineColumn :=
  ofPosition (file.position (file.pos (file.offset p)))

def location? (file : SourceFile) (source : String) (d : Diagnostic) : Option Location :=
  d.primarySpan?.bind fun span =>
    let position := file.position span.start
    if position.isValid then
      some ⟨ofPosition position, (file.lineText source position.line).getD ""⟩
    else none

def entry (file : SourceFile) (source : String) (d : Diagnostic) : ReportEntry where
  severity := Diagnostic.severity
  code := d.code
  category := (d.code.bind ErrorCode.find?).map ErrorCode.category
  message := d.message
  location := location? file source d
  labels := d.labels.map fun l =>
    ⟨l.style.name, l.message, lineColumn file l.span.start, lineColumn file l.span.stop⟩
  notes := d.notes
  help := d.help

def ofDiagnostics (file : SourceFile) (source phase : String) (ds : List Diagnostic) : Report where
  version := 1
  file := file.name
  success := ds.isEmpty
  phase := phase
  diagnostics := ds.map (entry file source)
  errorCount := ds.length

/-! ### As JSON -/

def placeMembers (p : LineColumn) : List (String × Json) :=
  [("line", .number p.line), ("column", .number p.column), ("byte_offset", .number p.offset)]

/-- A member that is left out if its value is missing. -/
def optional (key : String) (value : Option Json) : List (String × Json) :=
  (value.map fun v => (key, v)).toList

def labelJson (l : ReportLabel) : Json :=
  .object <|
    ("role", .string l.role) :: optional "message" (l.message.map .string)
      ++ [("start", .object (placeMembers l.start)), ("end", .object (placeMembers l.stop))]

def locationJson (l : Location) : Json :=
  .object (placeMembers l.place ++ [("source_line", .string l.sourceLine)])

def entryJson (e : ReportEntry) : Json :=
  .object <|
    ("severity", .string e.severity) :: optional "code" (e.code.map .string)
      ++ optional "category" (e.category.map .string) ++ [("message", .string e.message)]
      ++ optional "location" (e.location.map locationJson)
      ++ [("labels", .array (e.labels.map labelJson))]
      ++ (if e.notes.isEmpty then [] else [("notes", .array (e.notes.map .string))])
      ++ optional "help" (e.help.map .string)

def toJson (r : Report) : Json :=
  .object
    [("version", .number r.version), ("file", .string r.file), ("success", .boolean r.success),
      ("phase", .string r.phase), ("diagnostics", .array (r.diagnostics.map entryJson)),
      ("error_count", .number r.errorCount)]

/-- The JSON text of the report, without a final line feed. -/
def text (r : Report) : String := r.toJson.pretty 0

end Report

end RoseLang
