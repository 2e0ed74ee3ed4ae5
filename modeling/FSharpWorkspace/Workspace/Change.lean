import FSharpWorkspace.Solution
import FSharpWorkspace.Workspace.Resolve
/-!
# Changes

What the workspace does when files change. A change of a script or project drops its result and,
through `Cache.cascade`, those of everything that depends on it; nothing is resolved anew until
somebody asks. A change of a solution only changes the index. A restore rewrites a lock file, and
the projects above it are stale.
-/

set_option autoImplicit false

namespace FSharpWorkspace.Act

variable {σ : Type}

/-! ## Scripts and projects -/

def changed (l : Location) : Act σ Unit := modifyCache fun c => c.cascade Resolution.dependsOn l

/-- Does `action` if `id` is a script or project. -/
def ifResolvable (id : Identity) (action : Act σ Unit) : Act σ (Except Misuse Unit) := do
  if id.kind.isResolvable then return .ok (← action)
  else return .error (.unresolvable id.location)

/-- A script or project was created. -/
def created (id : Identity) : Act σ (Except Misuse Unit) :=
  ifResolvable id do
    modifyIndex (·.insertProject id)
    changed id.location

/-- A script or project was rewritten. -/
def updated (id : Identity) : Act σ (Except Misuse Unit) :=
  ifResolvable id do
    modifyIndex (·.insertProject id)
    changed id.location

/-- A script or project was deleted. -/
def deleted (id : Identity) : Act σ (Except Misuse Unit) :=
  ifResolvable id do
    modifyIndex (·.removeProject id.location)
    changed id.location

/-! ## Solutions -/

/-- Does `action` if `id` is a solution. -/
def ifSolution (id : Identity) (action : Act σ Unit) : Act σ (Except Misuse Unit) := do
  if id.kind = .solution then return .ok (← action)
  else return .error (.notASolution id.location)

/-- A solution was written: its members are read again, and one that cannot be read is not known. -/
def solutionUpdated (env : Surroundings σ) (id : Identity) : Act σ (Except Misuse Unit) :=
  ifSolution id do
    let outside ← Act.outside
    match env.read outside id.location with
    | .ok text =>
      modifyIndex (·.setSolution id (Solution.members (env.locate outside) id.dir.path text))
    | .error _ => modifyIndex (·.removeSolution id.location)

def solutionDeleted (id : Identity) : Act σ (Except Misuse Unit) :=
  ifSolution id (modifyIndex (·.removeSolution id.location))

/-! ## Restores -/

/-- The directory of the projects that a lock file belongs to: the one above `obj`. -/
def restoredDir? (lockFile : Location) : Option Location := do
  let obj ← lockFile.parent?
  if obj.fileName? = some "obj" then obj.parent? else none

/-- The projects, known or computed, that lie in the directory `dir`. -/
def projectsIn (dir : Location) : Act σ (List Identity) := do
  let known := (← index).projects
  let computed := (← cache).computed.map (·.1)
  return (Identity.sorted (known ++ computed)).filter fun id => id.kind = .project && id.dir = dir

/-- A restore rewrote a lock file. Returns how many projects it makes stale. -/
def restored (env : Surroundings σ) (lockFile : Path) : Act σ Nat := do
  match restoredDir? (← env.place lockFile) with
  | none => return 0
  | some dir =>
    let owners ← projectsIn dir
    owners.forM fun id => changed id.location
    return owners.length

end FSharpWorkspace.Act
