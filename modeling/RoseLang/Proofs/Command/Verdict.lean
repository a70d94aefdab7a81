import RoseLang.Command.Run
import RoseLang.Proofs.Parse.Acceptance

/-!
# The verdict of the command

With which status a phase ends depends on whether it finds an error in the text, not on how much of what it finds
is wanted or how that is shown. A text that is not read without an error is not parsed without one, either.
-/

namespace RoseLang

namespace Command

open Text

/-! ### Arguments -/

namespace Options

end Options

namespace Request

end Request

/-! ### Runs -/

section
variable {read : String → Except ReadError String} {job : Job} {source : String} {file : SourceFile} {set : FileSet}
  (hread : read job.path = .ok source) (hfile : FileSet.empty.add job.path source = .ok (file, set))
include hread hfile

end

end Command

end RoseLang
