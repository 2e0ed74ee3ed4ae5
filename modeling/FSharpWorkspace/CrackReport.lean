import FSharpWorkspace.Path
/-!
# What cracking a project reports

Cracking evaluates a project file. The report lists its sources and references, all relative to the
directory of the project, or says why the evaluation failed.
-/

set_option autoImplicit false

namespace FSharpWorkspace

structure CrackReport where
  sources : List Path := []
  target : Option Path := none
  projectReferences : List Path := []
  otherReferences : List Path := []
  packageReferences : List Path := []
  directReferences : List Path := []
  error : Option String := none
deriving DecidableEq, Repr

namespace CrackReport

def failed (message : String) : CrackReport := { error := some message }

def unconfigured : CrackReport :=
  failed "No project cracker is configured; set `[cracker] command` in fsls.toml"

/-- Every referenced artifact that is no project, in the order of the flags. -/
def artifacts (r : CrackReport) : List Path :=
  r.otherReferences ++ r.packageReferences ++ r.directReferences

end CrackReport

end FSharpWorkspace
