import RoseLang.Diagnostic.Basic
import RoseLang.Source.File
import RoseLang.Text.Paint

/-!
# Diagnostics with source lines

The form of a diagnostic for a reader at a terminal: a headline, the place, every source line on which a
label starts with its labels underlined, then the notes and the help.

```text
error[E0200]: a redeclared in this block
  --> main.rose:2:5
    |
  1 | var a = 1
    |     - previous declaration here
  2 | var a = 2
    |     ^ redeclared here
    |
    = help: rename one of the a declarations
```

Columns count bytes, from 1.
-/

namespace RoseLang

open Text

namespace LabelStyle

/-- The character that underlines a label. -/
def mark : LabelStyle → Char
  | primary => '^'
  | secondary => '-'

/-- The style in which a label and its underline are painted. -/
def paint : LabelStyle → Style
  | primary => .boldHue .red
  | secondary => .hue .blue

/-- Primary labels come before secondary ones. -/
def rank : LabelStyle → Nat
  | primary => 0
  | secondary => 1

end LabelStyle

namespace Snippet

/-- A label on its line, from one column up to, but not including, another. -/
structure Annotation where
  column : Nat
  stop : Nat
  style : LabelStyle
  message : Option String
  deriving DecidableEq, Repr

/-- Where a position is, if it is one of the file. -/
def lineColumn? (file : SourceFile) (p : Pos) : Option (Nat × Nat) :=
  let position := file.position p
  if position.isValid then some (position.line, position.column) else none

def lineText (file : SourceFile) (source : String) (line : Nat) : String :=
  (file.lineText source line).getD ""

/-- The line on which a label starts, and its part on that line. A label that goes on beyond the line,
or beyond the file, is cut at the end of the line, and every label is at least one column wide. -/
def annotation? (file : SourceFile) (source : String) (label : Label) : Option (Nat × Annotation) :=
  match lineColumn? file label.span.start with
  | none => none
  | some (line, column) =>
    let lineEnd := (lineText file source line).utf8ByteSize + 1
    let stop := match lineColumn? file label.span.stop with
      | some (stopLine, stop) => if stopLine = line then stop else lineEnd
      | none => lineEnd
    some (line, ⟨column, max stop (column + 1), label.style, label.message⟩)

/-- Primary annotations first, each kind by column; otherwise as given. -/
def sorted (annotations : List Annotation) : List Annotation :=
  annotations.mergeSort fun a b =>
    a.style.rank < b.style.rank || (a.style.rank = b.style.rank && a.column ≤ b.column)

/-- The mark under a column: that of the last annotation which covers it. -/
def markAt (annotations : List Annotation) (column : Nat) : Char :=
  match annotations.reverse.find? (fun a => a.column ≤ column && column < a.stop) with
  | some a => a.style.mark
  | none => ' '

/-- The row of marks under a line, up to the last one. -/
def underline (annotations : List Annotation) : List Char :=
  let width := (annotations.map Annotation.stop).foldl max 1 - 1
  (((List.range' 1 width).map (markAt annotations)).reverse.dropWhile (· = ' ')).reverse

/-- The row of marks, each run of equal ones painted as one. -/
def paintedUnderline (annotations : List Annotation) : Painted :=
  ((underline annotations).splitBy (· == ·)).map fun run =>
    let style := match run.head? with
      | some '^' => LabelStyle.primary.paint
      | some '-' => LabelStyle.secondary.paint
      | _ => .plain
    ⟨style, String.ofList run⟩

/-- What stands left of the text in a row without a line number. -/
def margin (gutter : Nat) : Painted := plain (spaces (gutter + 1) ++ " ") ++ hued .blue "|"

/-- The rows under a source line. A single message stands after the underline; of several each has a
row of its own, the last annotation first. -/
def annotationRows (gutter : Nat) (annotations : List Annotation) : List Painted :=
  let annotations := sorted annotations
  let marks := margin gutter ++ plain " " ++ paintedUnderline annotations
  let messages := annotations.filterMap fun a => a.message.map fun m => (a, m)
  match messages with
  | [] => [marks]
  | [(a, message)] => [marks ++ plain " " ++ [⟨a.style.paint, message⟩]]
  | _ =>
    marks :: messages.reverse.map fun (a, message) =>
      margin gutter ++ plain (" " ++ spaces (a.column - 1)) ++ [⟨a.style.paint, "|"⟩] ++ plain " "
        ++ [⟨a.style.paint, message⟩]

/-- The row of a source line. -/
def sourceRow (gutter line : Nat) (text : String) : Painted :=
  boldHued .blue (padLeft (gutter + 1) (toString line)) ++ plain " " ++ hued .blue "|"
    ++ plain (" " ++ text)

/-- The row that stands for left out lines. -/
def gapRow (gutter : Nat) : Painted := plain (spaces gutter ++ " ") ++ hued .blue "..."

/-- The rows of the source lines with the given numbers, which increase. -/
def lineRows (file : SourceFile) (source : String) (gutter : Nat)
    (annotations : List (Nat × Annotation)) : List Nat → List Painted
  | [] => []
  | line :: more =>
    let own := annotations.filterMap fun (n, a) => if n = line then some a else none
    let gap := match more with
      | next :: _ => if line + 1 < next then [gapRow gutter] else []
      | [] => []
    sourceRow gutter line (lineText file source line) :: annotationRows gutter own ++ gap
      ++ lineRows file source gutter annotations more

/-- The numbers of the lines on which an annotation starts, in order and without repetition. -/
def lineNumbers (annotations : List (Nat × Annotation)) : List Nat :=
  ((annotations.map Prod.fst).mergeSort (· ≤ ·)).eraseDups

def headline (d : Diagnostic) : Painted :=
  let code := match d.code with
    | some code => plain "[" ++ boldHued .red code ++ plain "]"
    | none => []
  boldHued .red Diagnostic.severity ++ code ++ plain ": " ++ bold d.message

/-- The row of a note or of the help. -/
def remark (role text : String) : Painted :=
  plain (spaces 4) ++ hued .cyan "=" ++ plain " " ++ boldHued .cyan role ++ plain (": " ++ text)

def remarks (d : Diagnostic) : List Painted :=
  d.notes.map (remark "note") ++ (d.help.map (remark "help")).toList

/-- The row that tells where the diagnostic points, if that is in the file. -/
def placeRow (file : SourceFile) (d : Diagnostic) : List Painted :=
  match d.primarySpan?.bind fun span => lineColumn? file span.start with
  | none => []
  | some (line, column) =>
    let name := if file.name.isEmpty then "<source>" else file.name
    [plain "  " ++ hued .blue "-->"
      ++ plain (" " ++ name ++ ":" ++ toString line ++ ":" ++ toString column)]

/-- All rows of a diagnostic. -/
def rows (file : SourceFile) (source : String) (d : Diagnostic) : List Painted :=
  let annotations := d.labels.filterMap (annotation? file source)
  let numbers := lineNumbers annotations
  match numbers.getLast? with
  | none => headline d :: remarks d
  | some last =>
    let gutter := max (toString last).length 2
    let separator := if (remarks d).isEmpty then [] else [margin gutter]
    headline d :: placeRow file d ++ margin gutter :: lineRows file source gutter annotations numbers
      ++ separator ++ remarks d

end Snippet

/-- The text of a diagnostic about a file, each row ended by a line feed. -/
def Diagnostic.render (colour : Bool) (file : SourceFile) (source : String) (d : Diagnostic) : String :=
  String.join ((Snippet.rows file source d).map fun row => Painted.render colour row ++ "\n")

end RoseLang
