import FSharpWorkspace.CrackReport.Json
import FSharpWorkspace.Settings
import FSharpWorkspace.Shell.Start
import FSharpWorkspace.Workspace.Change
/-!
# Surroundings on a disk

A machine has a disk, a working directory and, if its settings say so, a command that cracks
projects: it is run in the directory of the project, with the project as its last argument, and
prints the report. Whatever goes wrong with the command becomes the error of the report
(`Machine.reportOf`).
-/

set_option autoImplicit false

namespace FSharpWorkspace

/-- A disk with what a workspace on it needs to know. -/
structure Machine where
  disk : Disk
  /-- The working directory. -/
  directory : Location
  cracker : Option CrackerSettings
  scan : ScanOptions
deriving Repr

namespace Machine

def ofSettings (disk : Disk) (directory : Location) (settings : Settings) : Machine :=
  ⟨disk, directory, settings.cracker, settings.scan⟩

def locate (m : Machine) (p : Path) : Location := m.disk.locate m.directory p

/-! ## Cracking -/

def startFailure (command : String) (f : Shell.StartFault) : String :=
  "Failed to spawn project cracker `" ++ command ++ "`: " ++ f.message

/-- The report that a cracker made. -/
def reportOf (o : Shell.Outcome) : CrackReport :=
  if o.ending = .status 0 then
    match CrackReport.ofJson? o.output with
    | .ok report => report
    | .error f => .failed ("Project cracker produced malformed output: " ++ f.message o.output)
  else
    .failed ("Project cracker exited with " ++ o.ending.text ++ ": " ++
      String.ofList (Text.trim (Utf8.decodeLossy o.errors).toList))

/-- Cracks the project at a place. A cracker may write to the disk. -/
def crack (m : Machine) (l : Location) : CrackReport × Machine :=
  match m.cracker with
  | none => (.unconfigured, m)
  | some c =>
    match Shell.start m.disk l.dir.path c.command (c.args ++ [l.text]) with
    | .ok (outcome, disk) => (reportOf outcome, { m with disk })
    | .error f => (.failed (startFailure c.command f), m)

/-! ## Surroundings -/

/-- More than the resolutions, and the loads of scripts, nest: a cracker that names ever new
projects is stopped. -/
def depth (m : Machine) : Nat := m.disk.items.length + 1000

/-- The surroundings that a machine is. No file says when it was written. -/
def surroundings : Surroundings Machine where
  locate := locate
  read m l := m.disk.read .root l.path
  modified m l := if m.disk.reaches .root l.path then some 0 else none
  crack l := modifyGet fun w =>
    let (report, m) := w.outside.crack l
    (report, { w with outside := m })
  depth := depth

/-! ## Roots -/

/-- Registers what a scan found. Solutions are read, scripts and projects are not. -/
def register (env : Surroundings Machine) (id : Identity) : Act Machine Unit := do
  if id.kind = .solution then discard (Act.solutionUpdated env id)
  else Act.modifyIndex (·.insertProject id)

/-- Registers the scripts, projects and solutions below a directory. Returns how many were found. -/
def addRoot (dir : Path) : Act Machine (Except Misuse Nat) := do
  let m ← Act.outside
  if !m.disk.reachesDirectory m.directory dir then return .error (.notADirectory dir)
  let found := m.disk.scan m.directory dir m.scan
  found.forM (register surroundings)
  return .ok found.length

end Machine

end FSharpWorkspace
