import RoseLang.Text.Utf8

/-!
# Line starts

The table of the byte offsets at which the lines of a text start. The first line starts at 0, and every
line feed is followed by the start of the next line. Lines and columns count from 1, columns in bytes.
-/

namespace RoseLang

structure LineMap where
  starts : List Nat
  deriving DecidableEq, Repr

namespace LineMap

/-- The line starts after those line feeds that stand in `cs`, whose first byte has the given offset. -/
def startsFrom (offset : Nat) : List Char → List Nat
  | [] => []
  | c :: cs =>
    let next := offset + c.utf8Size
    if c = '\n' then next :: startsFrom next cs else startsFrom next cs

def ofText (source : String) : LineMap := ⟨0 :: startsFrom 0 source.toList⟩

def lineCount (m : LineMap) : Nat := m.starts.length

/-- The line and column of a byte offset: the line is the last one that starts at or before it. -/
def lineColumn (m : LineMap) (offset : Nat) : Nat × Nat :=
  let reached := m.starts.takeWhile (· ≤ offset)
  (reached.length, offset - reached.getLastD 0 + 1)

/-- The text of a line of `source`, without its line feed. -/
def lineText (m : LineMap) (source : String) (line : Nat) : Option String :=
  if line = 0 then none
  else
    match m.starts[line - 1]? with
    | none => none
    | some start =>
      let stop := match m.starts[line]? with
        | some next => next - 1
        | none => source.utf8ByteSize
      (Text.sliceBytes start stop source.toList).map String.ofList

end LineMap

end RoseLang
