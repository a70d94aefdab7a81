/-!
# The lines of a text

A line ends at a line feed, and a carriage return right before that line feed belongs to the line end.
Text after the last line feed is a line too, unless it is empty; it keeps a final carriage return.
-/

namespace RoseLang.Text

/-- The lines of `cs`, where `read` holds the characters of the first line read so far, last one
first. -/
def linesAfter (read : List Char) : List Char → List (List Char)
  | [] => if read.isEmpty then [] else [read.reverse]
  | c :: cs =>
    if c = '\n' then
      (match read with
        | '\r' :: line => line.reverse
        | line => line.reverse) :: linesAfter [] cs
    else linesAfter (c :: read) cs

/-- The lines of a text without their line ends. -/
def lines (s : String) : List String :=
  (linesAfter [] s.toList).map String.ofList

end RoseLang.Text
