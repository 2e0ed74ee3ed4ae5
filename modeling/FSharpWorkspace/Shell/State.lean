import FSharpWorkspace.Shell.Outcome
import FSharpWorkspace.Shell.Script
/-!
# Shells

A shell keeps its disk and directory, its streams, variables, functions and arguments, and the
status of the last command. What is written goes to the sink of a stream; what reaches the outside
is kept in `sent`, the latest first. A command may end the shell, or leave loops and functions.
-/

set_option autoImplicit false

namespace FSharpWorkspace.Shell

/-- Where a stream goes. -/
inductive Sink where
  | output
  | errors
  | nowhere
  | file (l : Location)
  /-- To a command or a word of this shell. -/
  | pipe (number : Nat)
deriving DecidableEq, Repr

/-- Bytes that were sent somewhere. -/
structure Sent where
  sink : Sink
  bytes : List UInt8
deriving Repr

/-- What a command leaves before its end. -/
inductive Leaving where
  /-- Loops, from the innermost on, the last of which goes on with its next round if `again`. -/
  | loops (count : Nat) (again : Bool)
  | function
deriving DecidableEq, Repr

structure State where
  place : Place
  input : List UInt8
  streams : List (Nat × Sink)
  sent : List Sent
  /-- The variables, with their values. -/
  bindings : List (String × String)
  /-- The variables that programs see. -/
  exported : List String
  functions : List (String × Command)
  /-- The name under which the shell complains. -/
  name : String
  args : List String
  /-- The line of the command that runs. -/
  line : Nat
  status : Nat
  /-- How the shell ended, once it did. -/
  ended : Option Ending
  leaving : Option Leaving
  /-- How many loops the command that runs is in. -/
  loops : Nat
  /-- The variables of the function that runs, with what they were outside of it. -/
  hidden : List (String × Option String)
  /-- Whether a failing command ends the shell. -/
  strict : Bool
  /-- Whether patterns stand for themselves, not for files. -/
  literal : Bool
  /-- Whether a variable must be set. -/
  careful : Bool
  /-- Whether commands are written to the errors before they run. -/
  traced : Bool
  /-- Whether the status of what runs is asked for. -/
  tested : Bool
  /-- What runs at the end. -/
  atEnd : Option String
  /-- How many pipes there were. -/
  pipes : Nat
deriving Repr

abbrev ShellM := StateM State

namespace State

/-- A shell that has not run anything. -/
def fresh (place : Place) (input : List UInt8) (name : String) (args : List String) : State :=
  { place, input, streams := [(1, .output), (2, .errors)], sent := [], bindings := []
    exported := [], functions := []
    name, args, line := 1, status := 0, ended := none, leaving := none, loops := 0, hidden := []
    strict := false, literal := false, careful := false, traced := false, tested := false
    atEnd := none, pipes := 0 }

def ownNumber : String := "1000"

/-! ## Status -/

def setStatus (status : Nat) : ShellM Unit := modify fun sh => { sh with status }

def finish (e : Ending) : ShellM Unit := modify fun sh => { sh with ended := some e }

/-- Whether the shell runs no further command here. -/
def stopped : ShellM Bool := do
  let sh ← get
  return sh.ended.isSome || sh.leaving.isSome

/-- The status that stands for an ending. -/
def statusOf : Ending → Nat
  | .status n => n
  | .signal n => 128 + n

/-! ## Writing -/

/-- Writes bytes to the end of a file. -/
def appendTo (d : Disk) (l : Location) (bytes : List UInt8) : Disk :=
  match d.item? l with
  | some (.file old) => d.put l (.file (old ++ bytes))
  | _ => d.put l (.file bytes)

def setDisk (disk : Disk) : ShellM Unit :=
  modify fun sh => { sh with place := { sh.place with disk } }

def write (stream : Nat) (bytes : List UInt8) : ShellM Unit := modify fun sh =>
  match (sh.streams.lookup stream).getD .nowhere with
  | .nowhere => sh
  | .file l => { sh with place := { sh.place with disk := appendTo sh.place.disk l bytes } }
  | sink => { sh with sent := ⟨sink, bytes⟩ :: sh.sent }

def writeChunks (chunks : List Chunk) : ShellM Unit :=
  chunks.forM fun chunk => write (if chunk.isError then 2 else 1) chunk.bytes

/-- Complains about something, with a status. -/
def complain (text : String) (status : Nat) : ShellM Unit := do
  let sh ← get
  write 2 (Utf8.encode (sh.name ++ ": " ++ toString sh.line ++ ": " ++ text ++ "\n"))
  setStatus status

/-- Complains about something that ends the shell. -/
def giveUp (text : String) : ShellM Unit := do
  complain text 2
  finish (.status 2)

/-! ## Shells within the shell -/

/-- What was sent to a pipe is taken out of what was sent. -/
def takePipe (number : Nat) : ShellM (List UInt8) := modifyGet fun sh =>
  let (mine, others) := sh.sent.partition (·.sink = .pipe number)
  (mine.reverse.flatMap (·.bytes), { sh with sent := others })

/-- Runs something in a copy of the shell. Of it stay what it wrote, what it left of the input, and
its status; a signal that it sends to the shell ends the shell. -/
def isolated (action : ShellM Unit) : ShellM Unit := do
  let before ← get
  set { before with atEnd := none }
  action
  let after ← get
  let killed := after.ended.filter fun
    | .signal _ => true
    | .status _ => false
  set { before with
    place := { before.place with disk := after.place.disk }
    input := after.input
    sent := after.sent
    pipes := after.pipes
    ended := killed
    status := (after.ended.map statusOf).getD after.status }

/-- The bytes that something writes to its output, in a copy of the shell. -/
def captured (action : ShellM Unit) : ShellM (List UInt8) := do
  let number := (← get).pipes
  modify fun sh => { sh with pipes := number + 1 }
  isolated do
    modify fun sh => { sh with streams := (1, .pipe number) :: sh.streams }
    action
  takePipe number

end State

end FSharpWorkspace.Shell
