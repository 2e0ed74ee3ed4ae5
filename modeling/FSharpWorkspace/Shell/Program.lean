import FSharpWorkspace.Shell.Tool
/-!
# Finding programs

A command without a slash names a program that every system has. One with a slash is a path: it is
followed on the disk together with what lies on every system, links included, and must end at one of
those programs. Other files are no programs, for nobody made them executable.
-/

set_option autoImplicit false

namespace FSharpWorkspace.Shell

/-! ## Programs -/

/-- A program that can be started. -/
inductive Program where
  | shell
  | tool (run : Call → Effect)

def shellNames : List String := ["sh", "dash"]

def Program.named? (name : String) : Option Program :=
  if shellNames.contains name then some .shell else (Tool.programs.lookup name).map .tool

/-! ## Where they lie -/

def programDirectories : List Location := [⟨["bin"]⟩, ⟨["usr", "bin"]⟩]

/-- The directories that every system has. -/
def systemDirectories : List Location :=
  programDirectories ++ ["boot", "dev", "etc", "home", "lib", "media", "mnt", "opt", "proc",
    "root", "run", "sbin", "srv",
    "sys", "tmp", "usr", "var"].map fun name => ⟨[name]⟩

/-- A disk together with the directories and programs of every system. -/
def withSystem (d : Disk) : Disk :=
  let names := shellNames ++ Tool.programs.map (·.1)
  let files :=
    programDirectories.flatMap fun dir => names.map fun name => (dir.child name, Item.file [])
  ⟨d.items ++ systemDirectories.map (·, .directory) ++ files⟩

/-! ## Finding -/

/-- Why a program cannot be started. -/
inductive StartFault where
  /-- The working directory or the command leads nowhere. -/
  | unreachable (fault : ReadFault)
  | permissionDenied
  | holdsNul
deriving DecidableEq, Repr

def StartFault.message : StartFault → String
  | unreachable fault => fault.message
  | permissionDenied => "Permission denied (os error 13)"
  | holdsNul => "nul byte found in provided data"

def Program.at? (l : Location) : Option Program :=
  if programDirectories.contains l.dir then l.fileName?.bind Program.named? else none

/-- The program that a command names from a directory. A name of dots alone is
that of a directory. -/
def Program.find (at_ : Place) (command : String) : Except StartFault Program :=
  if command.toList.contains '/' then
    match (withSystem at_.disk).resolve at_.directory ⟨command⟩ with
    | .ok l => (Program.at? l).elim (.error .permissionDenied) .ok
    | .error f => .error (.unreachable f)
  else if command = "." || command = ".." then .error .permissionDenied
  else if command.utf8ByteSize > Disk.nameLimit then .error (.unreachable .nameTooLong)
  else (Program.named? command).elim (.error (.unreachable .noEntry)) .ok

end FSharpWorkspace.Shell
