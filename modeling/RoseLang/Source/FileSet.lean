import RoseLang.Source.File

/-!
# File sets

The files of one session share the position space: each new file starts one place after the end of the
one before, so that no two of them have a position in common. Place 0 belongs to no file.
-/

namespace RoseLang

structure FileSet where
  /-- The base of the next file. -/
  next : Nat
  files : List SourceFile
  deriving DecidableEq, Repr

namespace FileSet

def empty : FileSet := ⟨1, []⟩

/-- Gives the text the next free positions. A text that does not fit leaves the set as it is. -/
def add (s : FileSet) (name source : String) : Except SourceError (SourceFile × FileSet) := do
  let file ← SourceFile.ofText name s.next source
  let next := s.next + file.size + 1
  if Pos.last.index < next then .error (.exhausted name)
  else .ok (file, ⟨next, s.files ++ [file]⟩)

/-- The file that has the position. -/
def file? (s : FileSet) (p : Pos) : Option SourceFile :=
  if p.isValid then
    match (s.files.takeWhile (fun f => f.base ≤ p.index)).getLast? with
    | some f => if f.contains p then some f else none
    | none => none
  else none

def position (s : FileSet) (p : Pos) : Position :=
  match s.file? p with
  | some f => f.position p
  | none => .unknown ""

end FileSet

end RoseLang
