import FSharpWorkspace.Shell.Expand
import FSharpWorkspace.Shell.Program
/-!
# What a shell does itself

The commands that change the shell: they end it, leave loops and functions, set variables, arguments
and options, go to another directory, send signals, and read lines. None of them runs a script.
-/

set_option autoImplicit false

namespace FSharpWorkspace.Shell

namespace State

/-! ## Leaving -/

/-- Ends the shell with a given status, or that of the last command. -/
def exit (args : List String) : ShellM Unit := do
  match args with
  | [] => finish (.status ((← get).status % 256))
  | text :: _ =>
    match text.toNat? with
    | some n => finish (.status (n % 256))
    | none => giveUp ("exit: Illegal number: " ++ text)

/-- Leaves the function that runs. -/
def leaveFunction (args : List String) : ShellM Unit := do
  match args with
  | [] => pure ()
  | text :: _ => setStatus (text.toNat?.getD 2)
  modify fun sh => { sh with leaving := some .function }

/-- Leaves loops, or goes on with the next round of one. -/
def leaveLoops (again : Bool) (args : List String) : ShellM Unit := do
  let sh ← get
  let count := min sh.loops ((args.head?.bind String.toNat?).getD 1)
  set { sh with status := 0, leaving := if count = 0 then none else some (.loops count again) }

/-- Whether a loop ends after a round, by what was left in it. -/
def endsLoop : ShellM Bool := modifyGet fun sh =>
  match sh.leaving with
  | none => (sh.ended.isSome, sh)
  | some .function => (true, sh)
  | some (.loops count again) =>
    if count ≤ 1 then (!again, { sh with leaving := none })
    else (true, { sh with leaving := some (.loops (count - 1) again) })

/-! ## Variables and options -/

/-- Drops arguments from the front. -/
def shift (args : List String) : ShellM Unit := do
  let n := (args.head?.bind String.toNat?).getD 1
  let sh ← get
  if n > sh.args.length then giveUp "shift: can't shift that many"
  else set { sh with args := sh.args.drop n, status := 0 }

/-- Cuts a text at its first equals sign. -/
def atEquals (text : String) : String × Option String :=
  let name := text.toList.takeWhile (· ≠ '=')
  (String.ofList name, if name.length <
    text.length then some (String.ofList (text.toList.drop (name.length + 1))) else none)

/-- Lets programs see variables. -/
def exportEach (args : List String) : ShellM Unit := do
  for arg in args do
    let (name, value) := atEquals arg
    value.forM fun value => assign name value
    modify fun sh => { sh with exported := name :: sh.exported }
  setStatus 0

/-- Makes variables belong to the function that runs. -/
def hideEach (args : List String) : ShellM Unit := do
  for arg in args do
    let (name, value) := atEquals arg
    modify fun sh => { sh with hidden := (name, sh.bindings.lookup name) :: sh.hidden }
    value.forM fun value => assign name value
  setStatus 0

/-- Forgets variables or functions. -/
def unset (args : List String) : ShellM Unit := modify fun sh =>
  match args with
  | "-f" :: names =>
    { sh with functions := sh.functions.filter fun f => !names.contains f.1, status := 0 }
  | names => { sh with bindings := sh.bindings.filter fun v => !names.contains v.1, status := 0 }

def optionLetters : List Char :=
  ['e', 'f', 'I', 'i', 'm', 'n', 's', 'x', 'v', 'V', 'E', 'C', 'a', 'b', 'u', 'p']

/-- The names of options, with their letters if they have one. -/
def optionNames : List (String × Option Char) :=
  [("errexit", some 'e'), ("noglob", some 'f'), ("ignoreeof", some 'I'), ("interactive", some 'i'),
    ("monitor", some 'm'), ("noexec", some 'n'), ("stdin", some 's'),
      ("xtrace", some 'x'), ("verbose", some 'v'),
    ("vi", some 'V'), ("emacs", some 'E'), ("noclobber", some 'C'),
      ("allexport", some 'a'), ("notify", some 'b'),
    ("nounset", some 'u'), ("privileged", some 'p'), ("nolog", none), ("debug", none)]

/-- Switches an option on or off. Of most options nothing is seen. -/
def switch (on : Bool) (letter : Char) : ShellM Unit := modify fun sh =>
  match letter with
  | 'e' => { sh with strict := on }
  | 'f' => { sh with literal := on }
  | 'u' => { sh with careful := on }
  | 'x' => { sh with traced := on }
  | _ => sh

/-- Switches options on or off by their letters; `o` takes the name of an option from the arguments.
The answer holds the arguments that are left. Complaints start with `name`. -/
def switchAll (name : String) (on : Bool) : List Char → List String → ShellM (List String)
  | [], args => return args
  | 'o' :: letters, option :: args => do
    match optionNames.lookup option with
    | some letter =>
      letter.forM (switch on)
      switchAll name on letters args
    | none =>
      giveUp (name ++ "Illegal option " ++ (if on then "-o " else "+o ") ++ option)
      return []
  | 'o' :: letters, [] => switchAll name on letters []
  | letter :: letters, args => do
    if optionLetters.contains letter then
      switch on letter
      switchAll name on letters args
    else
      giveUp (name ++ "Illegal option " ++ (if on then "-" else "+") ++ letter.toString)
      return []

/-- Sets options and arguments. Every round takes an argument. -/
def setFrom : Nat → List String → ShellM Unit
  | 0, _ => setStatus 0
  | _ + 1, [] => setStatus 0
  | _ + 1, "--" :: args => modify fun sh => { sh with args, status := 0 }
  | rounds + 1, arg :: rest => do
    match arg.toList with
    | '-' :: c :: letters => setMore rounds (← switchAll "set: " true (c :: letters) rest)
    | '+' :: c :: letters => setMore rounds (← switchAll "set: " false (c :: letters) rest)
    | ['-'] =>
      switch false 'x'
      modify fun sh => { sh with args := if rest.isEmpty then sh.args else rest, status := 0 }
    | _ => modify fun sh => { sh with args := arg :: rest, status := 0 }
where
  /-- Goes on unless the shell has ended. -/
  setMore (rounds : Nat) (args : List String) : ShellM Unit := do
    if !(← get).ended.isSome then setFrom rounds args

def setAll (args : List String) : ShellM Unit := setFrom (args.length + 1) args

/-! ## Input -/

/-- The words of a line, the last of at most `count` of them with all that is left. A backslash
protects the character after it, unless the line is `raw`. -/
def lineWords (isBlank : Char → Bool) (raw : Bool) : Nat → List Char → List (List Char)
  | 0, _ => []
  | 1, line => [((line.dropWhile isBlank).reverse.dropWhile isBlank).reverse |> plain]
  | count + 1, line =>
    let line := line.dropWhile isBlank
    let word := line.takeWhile fun c => !isBlank c
    plain word :: lineWords isBlank raw count (line.drop word.length)
where
  /-- A word without the backslashes that protect something. -/
  plain (word : List Char) : List Char := if raw then word else unprotected word
  /-- A text without the backslashes that protect something. -/
  unprotected : List Char → List Char
    | '\\' :: c :: rest => c :: unprotected rest
    | c :: rest => c :: unprotected rest
    | [] => []

/-- Reads a line into variables. -/
def readLine (args : List String) : ShellM Unit := do
  let raw := args.head? = some "-r"
  let names := if raw then args.tail else args
  let sh ← get
  let line := sh.input.takeWhile (· ≠ 10)
  let ended := line.length < sh.input.length
  let words :=
    lineWords (fun c => sh.separators.contains c) raw names.length (Utf8.decodeLossy line).toList
  set { sh with input := sh.input.drop (line.length + 1) }
  (names.zip words).forM fun (name, word) => assign name (String.ofList word)
  setStatus (if ended then 0 else 1)

/-! ## Elsewhere -/

/-- Goes to another directory. -/
def changeDirectory (args : List String) : ShellM Unit := do
  let sh ← get
  match args with
  | [] => setStatus 0
  | target :: _ =>
    let back := target = "-"
    let target := if back then (sh.bindings.lookup "OLDPWD").getD target else target
    match sh.place.disk.resolve sh.place.directory ⟨target⟩ with
    | .ok l =>
      if sh.place.disk.isDirectory l then
        set { sh with place := { sh.place with directory := l }, status := 0 }
        assign "OLDPWD" sh.place.directory.text
        if back then write 1 (Utf8.encode (l.text ++ "\n"))
      else complain ("cd: can't cd to " ++ target) 2
    | .error _ => complain ("cd: can't cd to " ++ target) 2

/-- Sends a signal; the shell is the only one to send it to. -/
def kill (args : List String) : ShellM Unit := do
  let (signal, targets) : Except String Nat × List String := match args with
    | ["-s"] => (.error "No arg for -s option", [])
    | "-s" :: name :: rest =>
      ((signalNumber? name).elim (.error ("invalid signal number or name: " ++ name)) .ok, rest)
    | "--" :: rest => (.ok 15, rest)
    | option :: rest =>
      match option.toList with
      | '-' :: c :: name =>
        ((signalNumber? (String.ofList (c :: name))).elim
          (.error ("Illegal option -" ++ c.toString)) .ok, rest)
      | _ => (.ok 15, option :: rest)
    | [] => (.ok 15, [])
  match signal, targets with
  | .error message, _ => complain ("kill: " ++ message) 2
  | .ok _, [] =>
    complain
      "kill: Usage: kill [-s sigspec | -signum | -sigspec] [pid | job]... or\nkill -l [exitstatus]"
      2
  | .ok n, target :: _ =>
    if target = ownNumber then if isIgnored n then setStatus 0 else finish (.signal n)
    else if target.toNat?.isSome then complain "kill: No such process\n" 1
    else complain ("kill: Illegal number: " ++ target) 2

/-- Says what runs at the end. -/
def trap (args : List String) : ShellM Unit := do
  match args with
  | action :: signals =>
    if signals.contains "EXIT" || signals.contains "0" then
      modify fun sh => { sh with atEnd := if action = "-" then none else some action }
  | [] => pure ()
  setStatus 0

/-! ## By name -/

/-- The commands of the shell whose failure ends it, and whose settings of variables stay. -/
def special : List String :=
  [":", "break", "continue", "eval", "exec", "exit", "export", "readonly", "return", "set",
    "shift", "trap", "unset", "."]

/-- The commands that a shell does itself and that run no script. -/
def own? (name : String) (args : List String) : Option (ShellM Unit) :=
  match name with
  | ":" => some (setStatus 0)
  | "exit" => some (exit args)
  | "return" => some (leaveFunction args)
  | "break" => some (leaveLoops false args)
  | "continue" => some (leaveLoops true args)
  | "shift" => some (shift args)
  | "export" => some (exportEach args)
  | "readonly" => some (exportEach args)
  | "local" => some (hideEach args)
  | "unset" => some (unset args)
  | "set" => some (setAll args)
  | "read" => some (readLine args)
  | "cd" => some (changeDirectory args)
  | "kill" => some (kill args)
  | "trap" => some (trap args)
  | "wait" => some (setStatus 0)
  | "umask" => some (setStatus 0)
  | "ulimit" => some (setStatus 0)
  | _ => none

end State

end FSharpWorkspace.Shell
