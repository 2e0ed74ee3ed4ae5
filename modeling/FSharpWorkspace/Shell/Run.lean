import FSharpWorkspace.Shell.BuiltIn
/-!
# Running shell scripts

Commands run with their redirections, pipes hand on what they print, and steps run as their links
say. Everything here takes a runner for the scripts inside of commands; `runScript` closes the
circle with a bound on how deep scripts nest. Loops are bounded too; a script that is not stopped by
itself before has no end.
-/

set_option autoImplicit false

namespace FSharpWorkspace.Shell

namespace State

variable (run : Runner)

/-! ## Redirections -/

def setStream (stream : Nat) (sink : Sink) : ShellM Unit := modify fun sh =>
  { sh with streams := (stream, sink) :: sh.streams.filter (·.1 ≠ stream) }

/-- The sink that a file of devices stands for. -/
def deviceSink? (streams : List (Nat × Sink)) (file : String) : Option Sink :=
  if file = emptyFile then some .nowhere
  else if file = "/dev/stdout" then streams.lookup 1
  else if file = "/dev/stderr" then streams.lookup 2
  else none

/-- Sends a stream to a file, which is made empty first if asked to. -/
def sendToFile (stream : Nat) (file : String) (emptied : Bool) : ShellM Bool := do
  let sh ← get
  match deviceSink? sh.streams file with
  | some sink =>
    setStream stream sink
    return true
  | none =>
    match sh.place.fileToWrite? file with
    | .ok l =>
      setDisk (if emptied then sh.place.disk.put l (.file []) else appendTo sh.place.disk l [])
      setStream stream (.file l)
      return true
    | .error f =>
      let why := match f with
        | .noEntry => "Directory nonexistent"
        | .notADirectory => "Directory nonexistent"
        | f => faultText f
      complain ("cannot create " ++ file ++ ": " ++ why) 2
      return false

/-- Applies a redirection. If it fails, it complains, and the answer is false. -/
def redirect (r : Redirect) : ShellM Bool := do
  let target ← expandWhole run r.target
  let sh ← get
  if sh.ended.isSome then return false
  match r.kind with
  | .text =>
    set { sh with input := Utf8.encode target }
    return true
  | .read =>
    match sh.place.bytesOf target with
    | .ok input =>
      set { sh with input }
      return true
    | .error f =>
      let why := match f with
        | .noEntry => "No such file"
        | .notADirectory => "No such file"
        | f => faultText f
      complain ("cannot open " ++ target ++ ": " ++ why) 2
      return false
  | .write => sendToFile r.stream target true
  | .append => sendToFile r.stream target false
  | .copy =>
    match target.toNat?.bind fun n => sh.streams.lookup n with
    | some sink =>
      setStream r.stream sink
      return true
    | none =>
      if target = "-" then
        setStream r.stream .nowhere
        return true
      else if target = "0" then return true
      else
        complain (target ++ ": Bad file descriptor") 2
        return false

/-- Applies redirections up to the first that fails. -/
def redirectAll : List Redirect → ShellM Bool
  | [] => return true
  | r :: rest => do
    if ← redirect run r then redirectAll rest else return false

/-- Runs something with redirections. -/
def withRedirects (redirects : List Redirect) (body : ShellM Unit) : ShellM Unit := do
  let before ← get
  if ← redirectAll run redirects then body
  let fed := redirects.any fun r => r.kind = .read || r.kind = .text
  modify fun sh =>
    { sh with streams := before.streams, input := if fed then before.input else sh.input }

/-! ## Programs -/

/-- Runs a program, which writes and leaves a status. -/
def runProgram (program : Call → Effect) (name : String) (args : List String) : ShellM Ending := do
  let sh ← get
  let effect := program ⟨sh.place, sh.input, name, args⟩
  setDisk effect.disk
  modify fun sh => { sh with input := effect.input }
  writeChunks effect.outcome.chunks
  setStatus (statusOf effect.outcome.ending)
  return effect.outcome.ending

/-- Runs a script, and at its end what was put off until then. -/
def runToEnd (script : Script) : ShellM Unit := do
  run script
  let sh ← get
  match sh.atEnd, sh.ended.getD (.status sh.status) with
  | some text, .status n =>
    match Script.ofText text with
    | .error _ => pure ()
    | .ok last =>
      set { sh with ended := none, leaving := none, atEnd := none }
      run last
      modify fun sh => { sh with ended := some (sh.ended.getD (.status n)) }
  | _, _ => pure ()

/-- Reads the options at the start of a shell's arguments: whether a script follows, and the
arguments that are left. Every round takes an argument. -/
def startOptions : Nat → Bool → List String → ShellM (Bool × List String)
  | 0, isScript, args => return (isScript, args)
  | rounds + 1, isScript, args => do
    match args with
    | [] => return (isScript, [])
    | arg :: rest =>
      match arg.toList with
      | ['-'] => return (isScript, rest)
      | ['-', '-'] => return (isScript, rest)
      | '-' :: letters =>
        let others ← switchAll "" true (letters.filter (· ≠ 'c')) rest
        startOptions rounds (isScript || letters.contains 'c') others
      | '+' :: letters => startOptions rounds isScript (← switchAll "" false letters rest)
      | _ => return (isScript, args)

/-- What a shell does with its arguments. What goes wrong before a script runs goes
wrong on line zero. -/
def runArguments (args : List String) : ShellM Unit := do
  modify fun sh => { sh with line := 0 }
  let (isScript, args) ← startOptions (args.length + 1) false args
  if (← get).ended.isSome then return
  match isScript, args with
  | true, [] => giveUp "-c requires an argument"
  | true, script :: args =>
    modify fun sh => { sh with line := 1, name := args.head?.getD sh.name, args := args.tail }
    parsed (Script.ofText script) "" (runToEnd run)
  | false, file :: args =>
    match (← get).place.bytesOf file with
    | .ok bytes =>
      modify fun sh => { sh with line := 1, name := file, args }
      parsed (Script.ofText (Utf8.decodeLossy bytes)) "" (runToEnd run)
    | .error f =>
      let why := match f with
        | .noEntry => "No such file"
        | f => faultText f
      giveUp ("cannot open " ++ file ++ ": " ++ why)
  | false, [] =>
    let text := Utf8.decodeLossy (← get).input
    modify fun sh => { sh with line := 1, input := [] }
    parsed (Script.ofText text) "" (runToEnd run)

/-- What a shell says of a program that a signal ended. -/
def obituary? : Nat → Option String
  | 1 => some "Hangup"
  | 3 => some "Quit"
  | 4 => some "Illegal instruction"
  | 6 => some "Aborted"
  | 7 => some "Bus error"
  | 8 => some "Floating point exception"
  | 9 => some "Killed"
  | 10 => some "User defined signal 1"
  | 11 => some "Segmentation fault"
  | 12 => some "User defined signal 2"
  | 14 => some "Alarm clock"
  | 15 => some "Terminated"
  | _ => none

/-- Runs another shell as a program. -/
def runChild (name : String) (args : List String) : ShellM Ending := do
  let before ← get
  let inherited := before.bindings.filter fun v => before.exported.contains v.1
  set { fresh before.place before.input name [] with
    streams := before.streams, sent := before.sent, pipes := before.pipes
    bindings := inherited, exported := before.exported }
  runArguments run args
  let after ← get
  let ending := after.ended.getD (.status after.status)
  set { before with
    place := { before.place with disk := after.place.disk }
    input := after.input, sent := after.sent, pipes := after.pipes, status := statusOf ending }
  return ending

/-- Runs the program that a command names. -/
def runExternal (command : String) (args : List String) : ShellM (Except StartFault Ending) := do
  match Program.find (← get).place command with
  | .ok .shell => return .ok (← runChild run command args)
  | .ok (.tool program) => return .ok (← runProgram program command args)
  | .error f => return .error f

def startComplaint : StartFault → String
  | .unreachable .noEntry => "not found"
  | .unreachable .notADirectory => "not found"
  | .unreachable f => faultText f
  | .permissionDenied => "Permission denied"
  | .holdsNul => "not found"

/-! ## Simple commands -/

def callFunction (body : Command) (args : List String) : ShellM Unit := do
  let before ← get
  set { before with args, hidden := [], loops := 0 }
  run [(.always, false, [body])]
  let hidden := (← get).hidden
  hidden.forM fun (name, value) => modify fun sh =>
    let others := sh.bindings.filter (·.1 ≠ name)
    { sh with bindings := value.elim others fun value => (name, value) :: others }
  modify fun sh => { sh with
    args := before.args, hidden := before.hidden, loops := before.loops
    leaving := if sh.leaving = some .function then none else sh.leaving }

/-- Puts a program in the place of the shell. -/
def replaceBy (name : String) (args : List String) : ShellM Unit := do
  match ← runExternal run name args with
  | .ok ending => finish ending
  | .error f =>
    let status := if f = .permissionDenied then 126 else 127
    complain ("exec: " ++ name ++ ": " ++ startComplaint f) status
    finish (.status status)

/-- Runs a text as a script of this shell. -/
def runText (origin text : String) : ShellM Unit := do
  let line := (← get).line
  setStatus 0
  parsed (Script.ofText text) origin run
  modify fun sh => { sh with line }

def source (args : List String) : ShellM Unit := do
  let sh ← get
  match args with
  | [] => setStatus 0
  | file :: _ =>
    if !file.toList.contains '/' then giveUp (".: " ++ file ++ ": not found")
    else
      match sh.place.bytesOf file with
      | .ok bytes => runText run "" (Utf8.decodeLossy bytes)
      | .error _ => giveUp (".: cannot open " ++ file ++ ": No such file")

/-- Says where a command comes from. -/
def locateCommand (name : String) : ShellM Unit := do
  let known := (own? name []).isSome || special.contains name || (Tool.builtIn? name "").isSome
  if known || ((← get).functions.lookup name).isSome then
    write 1 (Utf8.encode (name ++ "\n"))
    setStatus 0
  else
    match Program.find (← get).place name with
    | .ok _ =>
      write 1 (Utf8.encode
        ((if name.toList.contains '/' then name else "/usr/bin/" ++ name) ++ "\n"))
      setStatus 0
    | .error _ => setStatus 127

/-- Runs a command by its name, which is not that of a function. -/
def runNamed : List String → ShellM Unit
  | [] => setStatus 0
  | ["command", "-v", name] => locateCommand name
  | "command" :: rest => runNamed rest
  | ["exec"] => setStatus 0
  | "exec" :: name :: args => replaceBy run name args
  | "eval" :: args => runText run "eval: " (" ".intercalate args)
  | "." :: args => source run args
  | name :: args => do
    match own? name args with
    | some action => action
    | none =>
      let sh ← get
      let complaint := sh.name ++ ": " ++ toString sh.line ++ ": "
      match Tool.builtIn? name complaint with
      | some program => discard (runProgram program name args)
      | none =>
        match ← runExternal run name args with
        | .ok (.signal n) => (obituary? n).forM fun text => write 2 (Utf8.encode (text ++ "\n"))
        | .ok (.status _) => pure ()
        | .error f =>
          let status := if f = .permissionDenied && name.toList.contains '/' then 126 else 127
          complain (name ++ ": " ++ if name.isEmpty then "Permission denied"
            else startComplaint f) status

/-- The variable that a word assigns, with the word for its value. -/
def assignment? (w : Word) : Option (String × Word) :=
  let plain := w.takeWhile fun
    | .literal _ false => true
    | _ => false
  let text := (Token.literalText plain).toList
  let name := text.takeWhile Token.isNameChar
  match text.drop name.length with
  | '=' :: value =>
    if name.head?.any Token.startsName then
      some (String.ofList name, .literal (String.ofList value) true :: w.drop plain.length)
    else none
  | _ => none

/-- Assigns variables. Returns the assignments with their values. -/
def assignAll (settings : List (String × Word)) : ShellM (List String) :=
  settings.mapM fun (name, w) => do
    let value ← expandWhole run w
    assign name value
    return name ++ "=" ++ value

def trace (fields : List String) : ShellM Unit := do
  if (← get).traced then write 2 (Utf8.encode ("+ " ++ " ".intercalate fields ++ "\n"))

/-- Runs a named command. -/
def runFields (fields : List String) : ShellM Unit := do
  let name := fields.headD ""
  let functions := (← get).functions
  match (if special.contains name then none else functions.lookup name) with
  | some body => callFunction run body fields.tail
  | none => runNamed run fields

/-- Runs a command without parts. -/
def runSimple (words : List Word) (redirects : List Redirect) : ShellM Unit := do
  let settings := ((words.map assignment?).takeWhile Option.isSome).filterMap id
  let substitutions := (← get).pipes
  let fields ← expandWords run (words.drop settings.length)
  if ← stopped then return
  let before ← get
  let assigned ← assignAll run settings
  if ← stopped then return
  if !(assigned.isEmpty && fields.isEmpty) then trace (assigned ++ fields)
  let isSpecial := special.contains (fields.headD "")
  if fields.isEmpty then
    if (← get).pipes = substitutions then setStatus 0
    withRedirects run redirects (pure ())
  else if fields = ["exec"] then
    if !(← redirectAll run redirects) then finish (.status 2)
  else
    modify fun sh => { sh with exported := settings.map (·.1) ++ sh.exported }
    withRedirects run redirects (runFields run fields)
    if isSpecial && !redirects.isEmpty && (← get).status = 2 then finish (.status 2)
    if !isSpecial && !settings.isEmpty then
      modify fun sh => { sh with bindings := before.bindings, exported := before.exported }

/-! ## Commands -/

def loopRounds : Nat := 100000

/-- Runs something whose status is asked for. -/
def asking (action : ShellM Unit) : ShellM Unit := do
  let tested := (← get).tested
  modify fun sh => { sh with tested := true }
  action
  modify fun sh => { sh with tested }

def inLoop (action : ShellM Unit) : ShellM Unit := do
  let loops := (← get).loops
  modify fun sh => { sh with loops := loops + 1 }
  action
  modify fun sh => { sh with loops }

/-- Runs a loop with a condition; `last` is the status of the round before. -/
def runLoop (until_ : Bool) (condition body : Script) : Nat → Nat → ShellM Unit
  | 0, _ => pure ()
  | rounds + 1, last => do
    asking (run condition)
    if ← endsLoop then return
    if ((← get).status = 0) = until_ then setStatus last
    else
      run body
      if ← endsLoop then return
      runLoop until_ condition body rounds (← get).status

/-- Runs a body for each of some values. -/
def runEach (name : String) (body : Script) : List String → ShellM Unit
  | [] => pure ()
  | value :: rest => do
    assign name value
    run body
    if ← endsLoop then return
    runEach name body rest

/-- Runs the first arm with a pattern for a text. -/
def runChoice (text : List Char) : List (List Word × Script) → ShellM Unit
  | [] => setStatus 0
  | (patterns, body) :: rest => do
    let shapes ← patterns.mapM (expandShape run)
    if shapes.any fun shape => Pattern.hasShape shape text then
      setStatus 0
      run body
    else runChoice text rest

def runCommand (c : Command) : ShellM Unit := do
  match c with
  | .simple line words redirects =>
    modify fun sh => { sh with line }
    runSimple run words redirects
  | .group true body redirects => withRedirects run redirects (isolated (run body))
  | .group false body redirects => withRedirects run redirects (run body)
  | .branch condition yes no redirects =>
    withRedirects run redirects do
      asking (run condition)
      if ← stopped then return
      if (← get).status = 0 then run yes
      else
        setStatus 0
        run no
  | .loop until_ condition body redirects =>
    withRedirects run redirects (inLoop (runLoop run until_ condition body loopRounds 0))
  | .each name words body redirects =>
    let values ← match words with
      | some words => expandWords run words
      | none => do pure (← get).args
    if ← stopped then return
    if values.isEmpty then setStatus 0
    withRedirects run redirects (inLoop (runEach run name body values))
  | .choose subject arms redirects =>
    let text ← expandWhole run subject
    if ← stopped then return
    withRedirects run redirects (runChoice run text.toList arms)
  | .define name body =>
    modify fun sh =>
      { sh with functions := (name, body) :: sh.functions.filter (·.1 ≠ name), status := 0 }

/-- Runs the commands of a pipe, each with the output of the one before it as its input. -/
def runPipe : List Command → ShellM Unit
  | [] => pure ()
  | [c] => runCommand run c
  | c :: rest => do
    let bytes ← captured (runCommand run c)
    if ← stopped then return
    let input := (← get).input
    modify fun sh => { sh with input := bytes }
    isolated (runPipe rest)
    modify fun sh => { sh with input }

/-! ## Scripts -/

/-- Whether a step runs after a status. -/
def applies (link : Link) (status : Nat) : Bool :=
  match link with
  | .always => true
  | .onSuccess => status = 0
  | .onFailure => status ≠ 0

/-- Runs a step; `asked` says that the next step depends on its status. -/
def runStep (negated asked : Bool) (pipe : List Command) : ShellM Unit := do
  if negated || asked then asking (runPipe run pipe) else runPipe run pipe
  if ← stopped then return
  let sh ← get
  if negated then setStatus (if sh.status = 0 then 1 else 0)
  else if sh.strict && !asked && !sh.tested && sh.status ≠ 0 then finish (.status sh.status)

/-- Runs the steps of a script up to the end of the shell. -/
def runSteps : Script → ShellM Unit
  | [] => pure ()
  | (link, negated, pipe) :: rest => do
    if ← stopped then return
    let asked := match rest with
      | (next, _, _) :: _ => next ≠ .always
      | [] => false
    if applies link (← get).status then runStep run negated asked pipe
    runSteps rest

/-- Runs scripts that nest less than a given depth. -/
def runScript : Nat → Runner
  | 0, _ => finish (.status 2)
  | depth + 1, script => runSteps (runScript depth) script

end State

end FSharpWorkspace.Shell
