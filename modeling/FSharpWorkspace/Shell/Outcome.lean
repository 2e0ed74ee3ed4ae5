import FSharpWorkspace.Disk
/-!
# What programs do

A program reads the disk, writes chunks of bytes to its output and to its error output, and ends
with a status or by a signal. `Outcome.output` and `Outcome.errors` are what it wrote to each.
-/

set_option autoImplicit false

namespace FSharpWorkspace.Shell

/-- How a program ends. -/
inductive Ending where
  | status (code : Nat)
  | signal (number : Nat)
deriving DecidableEq, Repr

def signalNames : List (Nat × String) :=
  [(1, "SIGHUP"), (2, "SIGINT"), (3, "SIGQUIT"), (4, "SIGILL"), (5, "SIGTRAP"),
    (6, "SIGABRT"), (7, "SIGBUS"),
    (8, "SIGFPE"), (9, "SIGKILL"), (10, "SIGUSR1"), (11, "SIGSEGV"),
      (12, "SIGUSR2"), (13, "SIGPIPE"),
    (14, "SIGALRM"), (15, "SIGTERM"), (16, "SIGSTKFLT"), (17, "SIGCHLD"),
      (18, "SIGCONT"), (19, "SIGSTOP"),
    (20, "SIGTSTP"), (21, "SIGTTIN"), (22, "SIGTTOU"), (23, "SIGURG"),
      (24, "SIGXCPU"), (25, "SIGXFSZ"),
    (26, "SIGVTALRM"), (27, "SIGPROF"), (28, "SIGWINCH"), (29, "SIGIO"),
      (30, "SIGPWR"), (31, "SIGSYS")]

def lastSignal : Nat := 64

/-- Signals that a program does not feel unless it asks for them. -/
def isIgnored (signal : Nat) : Bool := [0, 17, 18, 23, 28].contains signal

/-- The number of a signal that is given by number, or by name without `SIG`. One of
them has no such name. -/
def signalNumber? (text : String) : Option Nat :=
  match text.toNat? with
  | some n => if n ≤ lastSignal then some n else none
  | none => (signalNames.find? fun (n, name) => name = "SIG" ++ text.toUpper && n ≠ 16).map (·.1)

def Ending.text : Ending → String
  | .status code => "exit status: " ++ toString code
  | .signal n =>
    "signal: " ++ toString n ++ ((signalNames.lookup n).elim "" fun name => " (" ++ name ++ ")")

structure Chunk where
  isError : Bool
  bytes : List UInt8
deriving DecidableEq, Repr

structure Outcome where
  chunks : List Chunk
  ending : Ending
deriving DecidableEq, Repr

namespace Outcome

def output (o : Outcome) : List UInt8 := (o.chunks.filter (!·.isError)).flatMap (·.bytes)

def errors (o : Outcome) : List UInt8 := (o.chunks.filter (·.isError)).flatMap (·.bytes)

def silent (code : Nat) : Outcome := ⟨[], .status code⟩

def printed (text : String) : Outcome := ⟨[⟨false, Utf8.encode text⟩], .status 0⟩

def complained (text : String) (code : Nat) : Outcome :=
  ⟨[⟨true, Utf8.encode (text ++ "\n")⟩], .status code⟩

end Outcome

/-! ## Running -/

structure Place where
  disk : Disk
  directory : Location
deriving Repr

/-- Why a file cannot be opened, without the number of the error. -/
def faultText (f : ReadFault) : String :=
  match f with
  | .notADirectory => "Not a directory"
  | .isADirectory => "Is a directory"
  | .linkLoop => "Too many levels of symbolic links"
  | .nameTooLong => "File name too long"
  | _ => "No such file or directory"

def emptyFile : String := "/dev/null"

def Place.bytesOf (at_ : Place) (file : String) : Except ReadFault (List UInt8) :=
  if file = emptyFile then .ok [] else at_.disk.readBytes at_.directory ⟨file⟩

def Place.reaches (at_ : Place) (file : String) : Bool :=
  file = emptyFile || at_.disk.reaches at_.directory ⟨file⟩

def Place.reachesDirectory (at_ : Place) (file : String) : Bool :=
  at_.disk.reachesDirectory at_.directory ⟨file⟩

/-- The place of a file that is to be written, whether it is there or not. -/
def Place.fileToWrite? (at_ : Place) (file : String) : Except ReadFault Location :=
  match at_.disk.resolve at_.directory ⟨file⟩ with
  | .ok l => if at_.disk.isDirectory l then .error .isADirectory else .ok l
  | .error .noEntry => do
    let p : Path := ⟨file⟩
    let dir := (p.parent?.getD ⟨"."⟩).text
    let l ← at_.disk.resolve at_.directory ⟨if dir.isEmpty then "." else dir⟩
    match p.fileName? with
    | some name => if at_.disk.isDirectory l then .ok (l.child name) else .error .notADirectory
    | none => .error .noEntry
  | .error f => .error f

/-- What a program left behind. -/
structure Effect where
  outcome : Outcome
  disk : Disk
  /-- What it left of its input. -/
  input : List UInt8

structure Call where
  place : Place
  input : List UInt8
  /-- The command by which it is called. -/
  name : String
  args : List String

namespace Call

def complaint (c : Call) (text : String) : String := c.name ++ ": " ++ text

/-- A program that neither reads its input nor changes the disk. -/
def done (c : Call) (o : Outcome) : Effect := ⟨o, c.place.disk, c.input⟩

/-- A program that reads its input to the end. -/
def drained (c : Call) (o : Outcome) : Effect := ⟨o, c.place.disk, []⟩

def changed (c : Call) (disk : Disk) (o : Outcome) : Effect := ⟨o, disk, c.input⟩

end Call

end FSharpWorkspace.Shell
