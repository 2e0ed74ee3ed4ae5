import FSharpWorkspace.Path
/-!
# Identities of scripts, projects and solutions

The suffix of a path, as it is written, says what kind of file it names; the identity keeps that
kind and the place of the file. Two identities are the same file when their places are equal,
whatever their kinds: every table of this library is keyed by `Identity.location`.
-/

set_option autoImplicit false

namespace FSharpWorkspace

/-! ## Kinds -/

/-- What a build-description file is. -/
inductive Kind where
  /-- A single-file script, its own last source. -/
  | script
  /-- A project of several files, evaluated by the cracker. -/
  | project
  /-- A list of projects. -/
  | solution
deriving DecidableEq, Repr

namespace Kind

/-- The kind that a suffix stands for. Suffixes are compared exactly. -/
def ofExtension? : String → Option Kind
  | "fsx" => some script
  | "fsproj" => some project
  | "sln" => some solution
  | _ => none

def ofPath? (p : Path) : Option Kind := p.extension?.bind ofExtension?

/-- Scripts and projects have options; solutions do not. -/
def isResolvable : Kind → Bool
  | script => true
  | project => true
  | solution => false

def name : Kind → String
  | script => "script"
  | project => "project"
  | solution => "solution"

end Kind

/-! ## Misuse -/

/-- What a caller can do wrong. Trouble with the files themselves is reported as a
diagnostic instead. -/
inductive Misuse where
  /-- The suffix is that of no build-description file. -/
  | unrecognizedFile (p : Path)
  /-- Options were asked of a solution. -/
  | unresolvable (l : Location)
  /-- A solution was expected. -/
  | notASolution (l : Location)
  /-- A directory was expected. -/
  | notADirectory (p : Path)
deriving DecidableEq, Repr

namespace Misuse

def message : Misuse → String
  | unrecognizedFile p =>
    "`" ++ p.text ++ "` is not a script (.fsx), project (.fsproj), or solution (.sln) file"
  | unresolvable l => "`" ++ l.text ++ "` is a solution file and has no project options"
  | notASolution l => "`" ++ l.text ++ "` is not a solution (.sln) file"
  | notADirectory p => "`" ++ p.text ++ "` is not a directory"

end Misuse

/-! ## Identities -/

/-- A script, project or solution: where it is, and its kind. -/
structure Identity where
  location : Location
  kind : Kind
deriving DecidableEq, Repr

namespace Identity

/-- The identity that a path names, where `locate` says which place a spelling stands for. -/
def of (locate : Path → Location) (p : Path) : Except Misuse Identity :=
  match Kind.ofPath? p with
  | some kind => .ok ⟨locate p, kind⟩
  | none => .error (.unrecognizedFile p)

def dir (id : Identity) : Location := id.location.dir

def text (id : Identity) : String := id.location.text

instance : ToString Identity := ⟨text⟩

def isAmong (l : Location) (ids : List Identity) : Bool := ids.any (·.location = l)

/-- Puts an identity into a list ordered by place. A file that is already there stays as it is. -/
def insert (id : Identity) : List Identity → List Identity
  | [] => [id]
  | other :: rest =>
    match compare id.location other.location with
    | .lt => id :: other :: rest
    | .eq => other :: rest
    | .gt => other :: insert id rest

/-- The identities of a list in order of their places, each file once: the first
of its kind stays. -/
def sorted (ids : List Identity) : List Identity := ids.foldl (fun kept id => insert id kept) []

end Identity

end FSharpWorkspace
