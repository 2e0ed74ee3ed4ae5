import FSharpWorkspace.Machine
import FSharpWorkspace.Session.Answer
/-!
# Sessions on a disk

Steps against a workspace on a disk. Besides the commands of every session there are steps
that scan and register directories, and steps that look at the disk or change it behind the
back of the workspace.
-/

set_option autoImplicit false

namespace FSharpWorkspace.Session

variable {τ : Type}

/-! ## Surroundings inside a session -/

/-- The workspace without the bookkeeping of its session. -/
def bare (w : Workspace (State τ)) : Workspace τ := { w with outside := w.outside.host }

def dress (s : State τ) (w : Workspace τ) : Workspace (State τ) :=
  { w with outside := { s with host := w.outside } }

/-- An action on a workspace as one of a session. -/
def lift {α : Type} (action : Act τ α) : Act (State τ) α := fun w =>
  match action (bare w) with
  | .ok a w' => .ok a (dress w.outside w')
  | .error e w' => .error e (dress w.outside w')

/-- Surroundings as those of a session. -/
def inSession (env : Surroundings τ) : Surroundings (State τ) where
  locate s := env.locate s.host
  read s := env.read s.host
  modified s := env.modified s.host
  crack l := lift (env.crack l)
  depth s := env.depth s.host

/-! ## Steps -/

inductive DiskStep where
  | command (c : Command)
  | addRoot (path : Path)
  /-- Puts an item at a spelling below the directory `top`. -/
  | write (top : Location) (path : Path) (item : Item)
  | unlink (path : Path)
  | scan (path : Path) (options : ScanOptions)
  | read (path : Path)
  | fileExists (path : Path)
  | canonicalize (path : Path)
deriving Repr

/-- What a step answers: the answer of a session, or a result alone. -/
inductive Reply where
  | answer (a : Answer)
  | result (r : Result)

def replyWith (result : Result) : Act (State Machine) Reply := do
  return .answer (.mk result (← resolvedFiles) 0 [])

def observe (f : Machine → Result) : Act (State Machine) Reply := do return .result (f (← host))

def modifyDisk (f : Disk → Disk) : Act (State Machine) Unit :=
  modifyHost fun m => { m with disk := f m.disk }

def performOnDisk : DiskStep → Act (State Machine) Reply
  | .command c => do replyWith (← runCommand (inSession Machine.surroundings) c)
  | .addRoot p => do
    match ← lift (Machine.addRoot p) with
    | .ok n => replyWith (.count n)
    | .error m => replyWith (.misuse m)
  | .write top p item => do
    modifyDisk (·.write top p item)
    return .result .nothing
  | .unlink p => do
    let m ← host
    match m.disk.remove m.directory p with
    | some disk =>
      modifyDisk fun _ => disk
      return .result (.flag true)
    | none => return .result (.flag false)
  | .scan p options => observe fun m => .identities (m.disk.scan m.directory p options)
  | .read p => observe fun m =>
    match m.disk.read m.directory p with
    | .ok text => .text text
    | .error f => .fault f
  | .fileExists p => observe fun m => .flag (m.disk.reaches m.directory p)
  | .canonicalize p => observe fun m => .place (m.locate p)

def runOnDisk : List DiskStep → Workspace (State Machine) → List Reply
  | [], _ => []
  | s :: rest, w =>
    match performOnDisk s w with
    | .ok r w => r :: runOnDisk rest w
    | .error _ w => .result .panic :: runOnDisk rest w

def replies (m : Machine) (steps : List DiskStep) : List Reply :=
  runOnDisk steps (Workspace.fresh ⟨m, [], []⟩)

end FSharpWorkspace.Session
