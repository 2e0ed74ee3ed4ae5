import FSharpWorkspace.Identity
/-!
# The index of known files

Which scripts, projects and solutions the workspace knows, and which projects each solution lists.
The index holds identities only; what they resolve to is in the cache. Both lists are ordered by
place, so a search for the first match has one answer.
-/

set_option autoImplicit false

namespace FSharpWorkspace

structure Index where
  /-- Known scripts and projects, ordered by place. -/
  projects : List Identity
  /-- Known solutions with the projects they list, ordered by place. -/
  solutions : List (Identity × List Identity)
deriving Repr

namespace Index

def empty : Index := ⟨[], []⟩

def insertProject (ix : Index) (id : Identity) : Index :=
  { ix with projects := id.insert ix.projects }

def removeProject (ix : Index) (l : Location) : Index :=
  { ix with projects := ix.projects.filter (·.location ≠ l) }

/-- Puts the members of a solution in place of those it had. -/
def putSolution (id : Identity) (members : List Identity) :
    List (Identity × List Identity) → List (Identity × List Identity)
  | [] => [(id, members)]
  | (other, theirs) :: rest =>
    match compare id.location other.location with
    | .lt => (id, members) :: (other, theirs) :: rest
    | .eq => (other, members) :: rest
    | .gt => (other, theirs) :: putSolution id members rest

def setSolution (ix : Index) (id : Identity) (members : List Identity) : Index :=
  { ix with solutions := putSolution id members ix.solutions }

def removeSolution (ix : Index) (l : Location) : Index :=
  { ix with solutions := ix.solutions.filter (·.1.location ≠ l) }

def knows (ix : Index) (l : Location) : Bool := Identity.isAmong l ix.projects

def inAnySolution (ix : Index) (l : Location) : Bool :=
  ix.solutions.any fun (_, members) => Identity.isAmong l members

end Index

end FSharpWorkspace
