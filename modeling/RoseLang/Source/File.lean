import RoseLang.Source.LineMap
import RoseLang.Source.Pos

/-!
# Source files

A source file is a named text with a place in the position space: its first byte is at `base`, and its
end, `size` bytes further on, is a position of the file too. A text whose end would lie past the last
position has no source file.
-/

namespace RoseLang

/-- Why a text cannot be given positions. -/
inductive SourceError where
  | tooLarge (name : String) (size : Nat)
  | exhausted (name : String)
  deriving DecidableEq, Repr

def SourceError.message : SourceError → String
  | .tooLarge name size =>
    name ++ ": file too large (" ++ toString size ++ " bytes, at most "
      ++ toString Pos.last ++ " allowed)"
  | .exhausted name => name ++ ": no positions left in the file set"

/-- A place in a named text: byte offset from 0, line and column from 1. Line 0 means no place. -/
structure Position where
  filename : String
  offset : Nat
  line : Nat
  column : Nat
  deriving DecidableEq, Repr

namespace Position

/-- No place in the named text. -/
def unknown (filename : String) : Position := ⟨filename, 0, 0, 0⟩

def isValid (p : Position) : Bool := 0 < p.line

/-- The position as `name:line:column`, without what is not known. -/
def text (p : Position) : String :=
  if p.isValid then
    let place := toString p.line ++ ":" ++ toString p.column
    if p.filename.isEmpty then place else p.filename ++ ":" ++ place
  else if p.filename.isEmpty then "-"
  else p.filename

end Position

structure SourceFile where
  name : String
  base : Nat
  size : Nat
  lineMap : LineMap
  deriving DecidableEq, Repr

namespace SourceFile

def ofText (name : String) (base : Nat) (source : String) : Except SourceError SourceFile :=
  let size := source.utf8ByteSize
  if Pos.last.index < size then .error (.tooLarge name size)
  else if Pos.last.index < base + size then .error (.exhausted name)
  else .ok ⟨name, base, size, LineMap.ofText source⟩

/-- The position of a byte offset. An offset past the end stands for the end. -/
def pos (f : SourceFile) (offset : Nat) : Pos := ⟨f.base + min offset f.size⟩

/-- The byte offset of a position. A position outside the file stands for the nearest end of it. -/
def offset (f : SourceFile) (p : Pos) : Nat := min (p.index - f.base) f.size

/-- Whether the position lies in the file, its end included. -/
def contains (f : SourceFile) (p : Pos) : Bool := f.base ≤ p.index ∧ p.index ≤ f.base + f.size

/-- The place of a position, if it is one of this file. -/
def position (f : SourceFile) (p : Pos) : Position :=
  if p.isValid && f.contains p then
    let offset := f.offset p
    let (line, column) := f.lineMap.lineColumn offset
    ⟨f.name, offset, line, column⟩
  else .unknown f.name

def lineCount (f : SourceFile) : Nat := f.lineMap.lineCount

/-- The line of `source` that has the given number in this file. -/
def lineText (f : SourceFile) (source : String) (line : Nat) : Option String :=
  f.lineMap.lineText source line

end SourceFile

end RoseLang
