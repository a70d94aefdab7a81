import RoseLang.Command.Run

/-!
# The command
-/

namespace RoseLang.Command

/-- Why a file could not be read. -/
def ReadError.ofError : IO.Error → ReadError
  | .noFileOrDirectory .. => .notFound
  | .inappropriateType _ 21 _ => .isDirectory
  | e => .other (toString e)

/-- The contents of a file as text. -/
def readSource (path : String) : IO (Except ReadError String) := do
  try
    match String.fromUTF8? (← IO.FS.readBinFile path) with
    | some text => return .ok text
    | none => return .error .notUtf8
  catch e => return .error (.ofError e)

/-- Whether to print in colour: the environment decides, else whether a terminal is there. -/
def useColour : IO Bool := do
  if (← IO.getEnv "NO_COLOR").isSome then return false
  if (← IO.getEnv "FORCE_COLOR").isSome then return true
  (← IO.getStdout).isTty

end RoseLang.Command

open RoseLang.Command in
def main (arguments : List String) : IO UInt32 := do
  let request := Request.ofArguments arguments
  let colour ← useColour
  let contents ← match request.path? with
    | some path => readSource path
    | none => pure (.error .notFound)
  let output := request.answer fun _ => contents
  IO.print (renderRows colour output.out)
  IO.eprint (renderRows colour output.err)
  return output.status.toUInt32
