import FSharpWorkspace.Shell.Run
/-!
# Starting programs

A program is started in a directory of a disk, with arguments and without input.
-/

set_option autoImplicit false

namespace FSharpWorkspace.Shell

def scriptDepth : Nat := 1000

/-- Runs the shell as a program, called by a name: what it did, and the disk afterwards. -/
def runShell (at_ : Place) (name : String) (args : List String) : Outcome × Disk :=
  let ((), sh) :=
    (State.runArguments (State.runScript scriptDepth) args).run (.fresh at_ [] name [])
  let chunks := sh.sent.reverse.filterMap fun sent =>
    match sent.sink with
    | .output => some ⟨false, sent.bytes⟩
    | .errors => some ⟨true, sent.bytes⟩
    | _ => none
  (⟨chunks, sh.ended.getD (.status sh.status)⟩, sh.place.disk)

/-- Starts a program in a directory. -/
def start (d : Disk) (directory : Path) (command : String) (args : List String) :
    Except StartFault (Outcome × Disk) :=
  if (command :: args).any fun word => word.toList.contains '\x00' then .error .holdsNul
  else
    match d.resolve .root directory with
    | .error f => .error (.unreachable f)
    | .ok l =>
      let here : Place := ⟨d, l⟩
      if !d.isDirectory l then .error (.unreachable .notADirectory)
      else
        match Program.find here command with
        | .ok .shell => .ok (runShell here command args)
        | .ok (.tool program) =>
          let effect := program ⟨here, [], command, args⟩
          .ok (effect.outcome, effect.disk)
        | .error f => .error f

end FSharpWorkspace.Shell
