import FSharpWorkspace.Workspace.Change
/-!
# File events

A watcher of the disk reports that files were created, changed or deleted; `Act.apply` routes such
an event to the change it stands for. Files that the workspace does not track are ignored.
-/

set_option autoImplicit false

namespace FSharpWorkspace

/-- What happened to a file. -/
inductive EventKind where
  | created
  | changed
  | deleted
deriving DecidableEq, Repr

structure FileEvent where
  kind : EventKind
  path : Path
deriving DecidableEq, Repr

def FileEvent.lockFileName : String := "project.assets.json"

namespace Act

variable {σ : Type}

def apply (env : Surroundings σ) (event : FileEvent) : Act σ (Except Misuse Unit) := do
  if event.path.fileName? = some FileEvent.lockFileName then
    if event.kind ≠ .deleted then discard (restored env event.path)
    return .ok ()
  else
    match Kind.ofPath? event.path with
    | none => return .ok ()
    | some kind =>
      let id : Identity := ⟨← env.place event.path, kind⟩
      match kind, event.kind with
      | .solution, .deleted => solutionDeleted id
      | .solution, _ => solutionUpdated env id
      | _, .created => created id
      | _, .changed => updated id
      | _, .deleted => deleted id

end Act

end FSharpWorkspace
