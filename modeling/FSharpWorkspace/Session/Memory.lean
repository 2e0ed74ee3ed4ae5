import FSharpWorkspace.Memory
import FSharpWorkspace.Session.Answer
/-!
# Sessions in memory

Steps against a workspace over files and crack reports in memory. A hook is a list of steps that
runs inside the next crack of a project, before the crack is counted; a hold is one that runs after
it is counted and before the report is looked up. So the steps of a hook see the project, and those
that led to it, in progress.

A panic in a hook unwinds through the crack and the resolutions up to the step of the
session (`runStep`).
-/

set_option autoImplicit false

namespace FSharpWorkspace.Session

/-! ## Steps -/

inductive Step where
  | command (c : Command)
  | project (path : Path) (sources references : List String)
  | failingProject (path : Path) (sources : List String) (error : String)
  | script (path : Path) (text : String)
  | solution (path : Path) (projects : List String)
  | addFile (path : Path) (content : String)
  | removeFile (path : Path)
  | read (path : Path)
  | modified (path : Path)
  | fileExists (path : Path)
  | crack (path : Path) (report : CrackReport)
  | invocations (path : Path)
  | hook (path : Path) (steps : List Step)
  | held (path hold : Path) (during : List Step)
  | panic
deriving Repr

namespace Step

mutual

def size (s : Step) : Nat :=
  match s with
  | .hook _ steps => sizes steps + 1
  | .held _ _ during => sizes during + 1
  | _ => 1

def sizes (steps : List Step) : Nat :=
  match steps with
  | [] => 0
  | s :: rest => size s + sizes rest

end

end Step

/-! ## The rig -/

/-- Steps to run inside the next crack of a project. -/
inductive Hook where
  | beforeCount (steps : List Step)
  | beforeLookup (steps : List Step)

/-- What a session in memory works on. -/
structure Rig where
  memory : Memory
  /-- Whether the session may set hooks; otherwise it may write projects and hold cracks. -/
  mayHook : Bool
  /-- More than resolutions can nest in this session. -/
  depth : Nat
  hooks : List (Location × Hook)
  /-- The answers of the steps that ran during the last hold. -/
  during : List Answer

def modifyMemory (f : Memory → Memory) : Act (State Rig) Unit :=
  modifyHost fun rig => { rig with memory := f rig.memory }

def memory : Act (State Rig) Memory := do return (← host).memory

def setHook (l : Location) (hook : Hook) : Act (State Rig) Unit :=
  modifyHost fun rig => { rig with hooks := (l, hook) :: rig.hooks.filter (·.1 ≠ l) }

/-- Takes the hook of a project away. -/
def takeHook (l : Location) : Act (State Rig) (Option Hook) :=
  modifyGet fun w =>
    let rig := w.outside.host
    (rig.hooks.lookup l,
      { w with outside :=
        { w.outside with host := { rig with hooks := rig.hooks.filter (·.1 ≠ l) } } })

/-! ## Steps -/

/-- The result, or a panic where there is none. -/
def orPanic {α ε : Type} : Except ε α → Act (State Rig) α
  | .ok a => return a
  | .error _ => throw .panic

/-- Writes a file and, for a project, its report, and registers it. -/
def author (p : Path) (content : Identity → String) (report : Identity → Option CrackReport) :
    Act (State Rig) Result := do
  if (← host).mayHook then throw .panic
  let id ← orPanic (Identity.of Memory.locate p)
  modifyMemory (·.write id.location.path (content id))
  match report id with
  | some report => modifyMemory (·.setReport id.location report)
  | none => pure ()
  orPanic (← Act.created id)
  return .identity id

/-- The result of reading a file. -/
def ofRead : Except ReadFault String → Result
  | .ok text => .text text
  | .error f => .fault f

def perform (env : Surroundings (State Rig)) : Step → Act (State Rig) Result
  | .command c => runCommand env c
  | .project p sources references =>
    author p (fun _ => Authoring.projectText sources references)
      fun id => some (Authoring.report id sources references)
  | .failingProject p sources error =>
    author p (fun _ => Authoring.projectText sources []) fun _ => some (.failed error)
  | .script p text => author p (fun _ => text) fun _ => none
  | .solution p projects => do
    if (← host).mayHook then throw .panic
    let id ← orPanic (Identity.of Memory.locate p)
    modifyMemory (·.write id.location.path (Solution.render projects))
    orPanic (← Act.solutionUpdated env id)
    return .identity id
  | .addFile p content => do
    modifyMemory (·.write p content)
    return .nothing
  | .removeFile p => do
    let present := ((← memory).file? p).isSome
    modifyMemory (·.remove p)
    return .flag present
  | .read p => do return ofRead ((← memory).read p)
  | .modified p => do
    match (← memory).written? p with
    | some tick => return .count tick
    | none => return .fault (.missing p)
  | .fileExists p => do return .flag ((← memory).file? p).isSome
  | .crack p report => do
    modifyMemory (·.setReport (Memory.locate p) report)
    return .nothing
  | .invocations p => do return .count ((← memory).cracksOf (Memory.locate p))
  | .hook p steps => do
    if !(← host).mayHook then throw .panic
    setHook (Memory.locate p) (.beforeCount steps)
    return .nothing
  | .held p hold steps => do
    if (← host).mayHook then throw .panic
    withIdentity env p fun id => do
      setHook (Memory.locate hold) (.beforeLookup steps)
      match ← Act.options env id with
      | .ok r => return .held (← host).during (← view r)
      | .error m => return .misuse m
  | .panic => throw .panic

/-- The answer to a step with a known result, and the hooks that ran in it. -/
def answerWith (result : Result) (hooked : List HookRun) : Act (State Rig) Answer := do
  return .mk result (← resolvedFiles) (← memory).totalCracks hooked

/-- Runs a step inside another one and answers it. -/
def answer (env : Surroundings (State Rig)) (s : Step) : Act (State Rig) Answer := do
  let outer := (← Act.outside).hooked
  Act.modifyOutside fun s => { s with hooked := [] }
  let result ← perform env s
  let inner := (← Act.outside).hooked
  Act.modifyOutside fun s => { s with hooked := outer }
  answerWith result inner

/-! ## Cracking with hooks -/

/-- Cracks a project. `runHook` runs the steps of a hook. -/
def crack (runHook : List Step → Act (State Rig) (List Answer)) (l : Location) :
    Act (State Rig) CrackReport := do
  match ← takeHook l with
  | none => modifyMemory (·.countCrack l)
  | some (.beforeCount steps) =>
    let answers ← runHook steps
    Act.modifyOutside fun s => { s with hooked := s.hooked ++ [.mk l answers] }
    modifyMemory (·.countCrack l)
  | some (.beforeLookup steps) =>
    modifyMemory (·.countCrack l)
    let answers ← runHook steps
    modifyHost fun rig => { rig with during := answers }
  return (← memory).report l

/-- Surroundings in memory that run hooks with a given function. -/
def surroundingsWith (runHook : List Step → Act (State Rig) (List Answer)) :
    Surroundings (State Rig) where
  locate _ p := Memory.locate p
  read s l := s.host.memory.read l.path
  modified s l := s.host.memory.written? l.path
  crack := crack runHook
  depth s := s.host.depth

/-- The surroundings of a session in which hooks may run inside hooks up to the given depth. Every
hook that runs is taken away first, so a session cannot nest them deeper than it has steps. -/
def surroundings : Nat → Surroundings (State Rig)
  | 0 => surroundingsWith fun _ => throw .nesting
  | level + 1 => surroundingsWith fun steps => steps.mapM (answer (surroundings level))

/-! ## Whole sessions -/

/-- Runs a step of the session itself. An interrupt ends here; what was changed before stays. -/
def runStep (env : Surroundings (State Rig)) (s : Step) (w : Workspace (State Rig)) :
    Option Answer × Workspace (State Rig) :=
  let w := { w with outside := { w.outside with hooked := [] } }
  match answer env s w with
  | .ok a w => (some a, w)
  | .error _ w =>
    match answerWith .panic [] w with
    | .ok a w => (some a, w)
    | .error _ w => (none, w)

def runSteps (env : Surroundings (State Rig)) : List Step → Workspace (State Rig) → List Answer
  | [], _ => []
  | s :: rest, w =>
    let (a, w) := runStep env s w
    a.toList ++ runSteps env rest w

/-- The answers of a session in memory. -/
def answers (mayHook : Bool) (steps : List Step) : List Answer :=
  let size := Step.sizes steps
  let rig : Rig :=
    { memory := .empty, mayHook, depth := (size + 2) * (size + 2), hooks := [], during := [] }
  runSteps (surroundings size) steps (Workspace.fresh ⟨rig, [], []⟩)

end FSharpWorkspace.Session
