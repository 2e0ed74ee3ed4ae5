import FSharpWorkspace.Workspace.Event
import FSharpWorkspace.Workspace.Query
/-!
# Sessions: commands and answers

A session is a list of steps against one workspace. Results are told apart by numbers, given in the
order in which results first appear in an answer. The commands here make sense in any surroundings;
steps that change the surroundings are added by each kind of session.
-/

set_option autoImplicit false

namespace FSharpWorkspace.Session

/-! ## Commands -/

/-- A change of or a query to the workspace. -/
inductive Command where
  | created (path : Path)
  | updated (path : Path)
  | deleted (path : Path)
  | solutionUpdated (path : Path)
  | solutionDeleted (path : Path)
  | restored (path : Path)
  | event (event : FileEvent)
  | options (path : Path)
  | owner (path : Path)
  | visible (target from_ : Path)
  | openProjects
  | dependencies (path : Path)
  | order (roots : List Path)
  | known
  | isResolved (path : Path)
  | dependsOn (path on : Path)
  | sourceIndex (path file : Path)
  | parallel (path : Path) (threads : Nat)
deriving Repr

/-! ## Answers -/

/-- A result as an answer shows it: its number, and those of the results it references. -/
structure View where
  resolution : Resolution
  number : Nat
  references : List Nat
deriving Repr

mutual

/-- What a step yields. -/
inductive Result where
  | nothing
  | flag (b : Bool)
  | count (n : Nat)
  | text (s : String)
  | identity (id : Identity)
  | identities (ids : List Identity)
  | place (l : Location)
  | misuse (m : Misuse)
  | fault (f : ReadFault)
  | panic
  | options (view : View)
  | owner (view : View)
  | diagnostics (ds : List Diagnostic)
  /-- Place, number and count of diagnostics of each result. -/
  | order (rows : List (Location × Nat × Nat))
  | known (index : Index)
  | sourceIndex (i : Option Nat)
  /-- The numbers of the results that threads found, and how many found none. -/
  | crowd (numbers : List Nat) (failed : Nat)
  | held (during : List Answer) (view : View)

/-- The answer to a step: its result, the known files that are resolved, how many cracks there were,
and the hooks that ran. -/
inductive Answer where
  | mk (result : Result) (resolved : List Location) (cracks : Nat) (hooked : List HookRun)

/-- A hook that ran during the crack of the project at a place. -/
inductive HookRun where
  | mk (place : Location) (steps : List Answer)

end

/-! ## State -/

/-- The surroundings of a session: a host, the stamps of the results shown so far, and the hooks
that ran in the innermost step. -/
structure State (τ : Type) where
  host : τ
  shown : List Nat
  hooked : List HookRun

variable {τ : Type}

def modifyHost (f : τ → τ) : Act (State τ) Unit :=
  Act.modifyOutside fun s => { s with host := f s.host }

def host : Act (State τ) τ := do return (← Act.outside).host

/-- The number of the result with a stamp. -/
def numberOf (stamp : Nat) : Act (State τ) Nat :=
  modifyGet fun w =>
    match w.outside.shown.findIdx? (· = stamp) with
    | some i => (i, w)
    | none =>
      (w.outside.shown.length,
        { w with outside := { w.outside with shown := w.outside.shown ++ [stamp] } })

/-- A result with its numbers: first its own, then those of its references. -/
def view (r : Resolution) : Act (State τ) View := do
  let number ← numberOf r.stamp
  let references ← r.references.mapM fun reference => numberOf reference.2.stamp
  return ⟨r, number, references⟩

def rows (order : List Resolution) : Act (State τ) Result := do
  return .order (← order.mapM fun r => do
    return (r.id.location, ← numberOf r.stamp, r.diagnostics.length))

/-- The known files that are resolved. -/
def resolvedFiles : Act (State τ) (List Location) := do
  let c ← Act.cache
  let ix ← Act.index
  return (ix.projects.map (·.location)).filter fun l => (c.peek l).isSome

/-! ## Running commands -/

variable (env : Surroundings (State τ))

/-- Does `action` with the identity that a path names. -/
def withIdentity (p : Path) (action : Identity → Act (State τ) Result) : Act (State τ) Result := do
  match ← env.identify p with
  | .ok id => action id
  | .error m => return .misuse m

/-- The result of a change. -/
def ofChange : Except Misuse Unit → Result
  | .ok () => .nothing
  | .error m => .misuse m

/-- Does `action` with the options of a file. -/
def withOptions (p : Path) (action : Resolution → Act (State τ) Result) : Act (State τ) Result :=
  withIdentity env p fun id => do
    match ← Act.options env id with
    | .ok r => action r
    | .error m => return .misuse m

/-- The options of each root in turn, up to the first that has none. -/
def resolveRoots : List Path → Act (State τ) (Except Misuse (List Resolution))
  | [] => return .ok []
  | p :: rest => do
    match ← env.identify p with
    | .error m => return .error m
    | .ok id =>
      match ← Act.options env id with
      | .error m => return .error m
      | .ok r => return (← resolveRoots rest).map (r :: ·)

/-- Asks for the owner of a file as often as there are threads. Threads that ask at once share one
computation, so they find what they would find one after the other. -/
def askOwners (p : Path) (threads : Nat) : Act (State τ) Result := do
  let answers ← (List.range threads).mapM fun _ => Act.owner env p
  let numbers ← (answers.filterMap Except.toOption).mapM fun r => numberOf r.stamp
  return .crowd numbers.eraseDups (answers.countP fun a => a.toOption.isNone)

def runCommand : Command → Act (State τ) Result
  | .created p => withIdentity env p fun id => ofChange <$> Act.created id
  | .updated p => withIdentity env p fun id => ofChange <$> Act.updated id
  | .deleted p => withIdentity env p fun id => ofChange <$> Act.deleted id
  | .solutionUpdated p => withIdentity env p fun id => ofChange <$> Act.solutionUpdated env id
  | .solutionDeleted p => withIdentity env p fun id => ofChange <$> Act.solutionDeleted id
  | .restored p => .count <$> Act.restored env p
  | .event e => ofChange <$> Act.apply env e
  | .options p => withOptions env p fun r => .options <$> view r
  | .owner p => do
    match ← Act.owner env p with
    | .ok r => .owner <$> view r
    | .error ds => return .diagnostics ds
  | .visible target from_ => .flag <$> Act.isVisible env target from_
  | .openProjects => do rows (← Act.openProjects)
  | .dependencies p =>
    withIdentity env p fun id => do
      match ← Act.dependenciesOf env id with
      | .ok order => rows order
      | .error m => return .misuse m
  | .order roots => do
    match ← resolveRoots env roots with
    | .ok rs => rows (Resolution.dependencyOrder rs)
    | .error m => return .misuse m
  | .known => do return .known (← Act.index)
  | .isResolved p => withIdentity env p fun id => .flag <$> Act.isResolved id.location
  | .dependsOn p on =>
    withIdentity env on fun other => withOptions env p fun r =>
      return .flag (r.dependsOn other.location)
  | .sourceIndex p file =>
    withOptions env p fun r => return .sourceIndex ((Location.ofPath? file).bind r.sourceIndex?)
  | .parallel p threads => askOwners env p threads

end FSharpWorkspace.Session
