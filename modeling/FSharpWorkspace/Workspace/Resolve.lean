import FSharpWorkspace.LoadDirective
/-!
# Resolving

`resolveOne` turns one identity into a resolution and hands its project references to a function
`dependency`. `resolveAt` closes the loop: a reference goes through the cache, so that each file is
resolved once, and a reference back to a project in progress is refused and becomes a
`cyclicReference` diagnostic.

A circle is told by its members, from the project it returns to, to the project whose reference
closed it. A member that was resolved inside the circle learns of it from the refusal, or from a
reference whose circle names it.
-/

set_option autoImplicit false

namespace FSharpWorkspace

variable {σ : Type}

/-! ## Circles -/

/-- A circle of references, written as a walk that ends where it starts. -/
def circleText (members : List Identity) : String :=
  String.join (members.map (·.text ++ " -> ")) ++ (members.head?.map (·.text)).getD ""

def circleDiagnostic (id : Identity) (members : List Identity) : Diagnostic :=
  ⟨.cyclicReference, id.location.path, "Cyclic project reference: " ++ circleText members⟩

/-- The circle closed by a reference to `closing` from the end of `path`, the projects being
resolved from the outermost on. If `closing` is none of them, the circle runs through somebody
else's resolution. -/
def circle (path : List Identity) (closing : Identity) : List Identity :=
  match path.dropWhile (·.location ≠ closing.location) with
  | [] => path.getLast?.toList ++ [closing]
  | members => members

/-! ## One script or project -/

namespace Act

def resolveScript (env : Surroundings σ) (id : Identity) : Act σ Resolution := do
  let outside ← Act.outside
  let loadTime := (env.modified outside id.location).elim .now .at
  match env.read outside id.location with
  | .error fault =>
    return .failed (← newStamp) id
      ⟨.scriptCheck, id.location.path, "Cannot read script: " ++ fault.message⟩ loadTime
  | .ok source =>
    let walk :=
      LoadWalk.check (fun dir r => env.locate outside (dir.path.join r)) (env.read outside)
      (env.depth outside) id.location.path id.dir source
    return { Resolution.empty (← newStamp) id loadTime with
      sources := walk.loaded ++ [id.location]
      flags := LoadWalk.flags
      diagnostics := walk.failures.map fun f => ⟨.scriptCheck, id.location.path, f.message⟩ }

def assetsFile (dir : Location) : Location := (dir.child "obj").child "project.assets.json"

/-- The later of the times at which a project and its restore output were written. -/
def projectLoadTime (env : Surroundings σ) (id : Identity) : Act σ LoadTime := do
  let outside ← Act.outside
  let times := [id.location, assetsFile id.dir].filterMap (env.modified outside)
  return .at (times.foldl max 0)

/-- The part of a project's resolution that its references decide. -/
structure Linked where
  flags : List String
  references : List (Option Location × Resolution)
  declared : List Identity
  cycle : List Identity

def referenceFlag (artifact : Location) : String := "-r:" ++ artifact.text

/-- The project that a reference of `id` names. References to other kinds of files are left out. -/
def referencedProject? (env : Surroundings σ) (id : Identity) (reference : Path) :
    Act σ (Option Identity) := do
  let there ← env.placeFrom id.dir reference
  match ← env.identify there.path with
  | .ok dep => return if dep.kind = .project then some dep else none
  | .error _ => return none

/-- What one resolved or refused reference adds. -/
def Linked.add (id dep : Identity) (linked : Linked) : Except (List Identity) Resolution → Linked
  | .ok r =>
    { flags := linked.flags ++ (r.target.map referenceFlag).toList
      references := linked.references ++ [(r.target, r)]
      declared := linked.declared ++ [dep]
      cycle := if linked.cycle.isEmpty && Identity.isAmong id.location r.cycle then
        r.cycle else linked.cycle }
  | .error members =>
    { linked with
      declared := linked.declared ++ [dep]
      cycle := if linked.cycle.isEmpty then members else linked.cycle }

def link (env : Surroundings σ) (id : Identity)
    (dependency : Identity → Act σ (Except (List Identity) Resolution)) (linked : Linked)
    (reference : Path) : Act σ Linked := do
  match ← referencedProject? env id reference with
  | none => return linked
  | some dep => return linked.add id dep (← dependency dep)

/-- Resolves a project by cracking it and following its references. -/
def resolveProject (env : Surroundings σ) (id : Identity)
    (dependency : Identity → Act σ (Except (List Identity) Resolution)) : Act σ Resolution := do
  let report ← env.crack id.location
  let loadTime ← projectLoadTime env id
  match report.error with
  | some error =>
    return .failed (← newStamp) id ⟨.crackFailed, id.location.path, error⟩ loadTime
  | none =>
    let linked ← report.projectReferences.foldlM (link env id dependency)
      ⟨["--noframework"], [], [], []⟩
    let artifacts ← report.artifacts.mapM (env.placeFrom id.dir)
    let sources ← report.sources.mapM (env.placeFrom id.dir)
    let target ← report.target.mapM (env.placeFrom id.dir)
    return {
      stamp := ← newStamp
      id
      sources
      flags := linked.flags ++ artifacts.map referenceFlag
      references := linked.references
      declared := linked.declared
      cycle := linked.cycle
      target
      loadTime
      diagnostics := if linked.cycle.isEmpty then [] else [circleDiagnostic id linked.cycle] }

/-- Resolves one identity, asking `dependency` for each project that it references. -/
def resolveOne (env : Surroundings σ) (id : Identity)
    (dependency : Identity → Act σ (Except (List Identity) Resolution)) : Act σ Resolution := do
  match id.kind with
  | .script => resolveScript env id
  | .project => resolveProject env id dependency
  | .solution =>
    return .failed (← newStamp) id
      ⟨.crackFailed, id.location.path, "Solution files have no project options"⟩ (.at 0)

/-! ## Through the cache -/

/-- Resolves a file through the cache. `path` lists the projects being resolved, from the outermost
on. A reference back to one of them yields the circle that it closes. -/
def resolveAt (env : Surroundings σ) :
    Nat → Identity → List Identity → Act σ (Except (List Identity) Resolution)
  | 0, _, _ => throw .nesting
  | depth + 1, id, path => do
    match ← request id with
    | .ready r => return .ok r
    | .refused closing => return .error (circle path closing)
    | .blocked _ => throw .stuck
    | .claimed s id =>
      return .ok (← computing s (resolveOne env id fun dep =>
        resolveAt env depth dep (path ++ [id])))

/-- Resolves a file for a caller. If the file is in progress further out, the result is a failure
that is not cached, for the circle belongs to the resolution in progress. -/
def resolve (env : Surroundings σ) (id : Identity) : Act σ Resolution := do
  match ← resolveAt env (env.depth (← Act.outside)) id [] with
  | .ok r => return r
  | .error members => return .failed (← newStamp) id (circleDiagnostic id members) .now

/-- The options of a script or project, computed at most once until invalidated. -/
def options (env : Surroundings σ) (id : Identity) : Act σ (Except Misuse Resolution) := do
  if id.kind.isResolvable then return .ok (← resolve env id)
  else return .error (.unresolvable id.location)

def isResolved (l : Location) : Act σ Bool := do return ((← cache).peek l).isSome

end Act

end FSharpWorkspace
