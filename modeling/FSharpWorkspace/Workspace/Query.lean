import FSharpWorkspace.Workspace.Resolve
/-!
# Queries

Who compiles a file, what can it see, and in which order do projects depend on each other.

The owner of a file is searched cheapest first: results that are in the cache, then known files that
are not resolved and whose text mentions the name of the file, members of solutions before others.
The mention is a heuristic; a project that names the file only through a pattern is not tried.
-/

set_option autoImplicit false

namespace FSharpWorkspace.Act

variable {σ : Type}

/-! ## Owners -/

def surface (r : Resolution) : Except (List Diagnostic) Resolution :=
  if r.hasDiagnostics then .error r.diagnostics else .ok r

/-- The first known file whose cached result compiles `file`. -/
def resolvedOwner? (c : Cache Resolution) (known : List Identity)
    (file : Location) : Option Resolution :=
  known.findSome? fun id => (c.peek id.location).filter (·.containsSource file)

/-- The known files without a cached result, members of solutions first. -/
def candidates (c : Cache Resolution) (ix : Index) : List Identity :=
  let unresolved := ix.projects.filter fun id => (c.peek id.location).isNone
  unresolved.filter (fun id => ix.inAnySolution id.location) ++
    unresolved.filter (fun id => !ix.inAnySolution id.location)

/-- Whether the text of a file mentions a name. A file that cannot be read mentions nothing. -/
def mentionsName (env : Surroundings σ) (id : Identity) (name : String) : Act σ Bool := do
  match ← env.text id.location with
  | .ok text => return Text.mentions text name
  | .error _ => return false

/-- Resolves the candidates that mention `name`, up to the first that compiles `file`. Otherwise the
answer is the first one that failed to resolve. -/
def tryCandidates (env : Surroundings σ) (file : Location) (name : String) :
    List Identity → Option Resolution → Act σ (Except (Option Resolution) Resolution)
  | [], broken => return .error broken
  | id :: rest, broken => do
    if ← mentionsName env id name then
      let r ← resolve env id
      if r.containsSource file then return .ok r
      else
        let broken := broken <|> if r.sources.isEmpty && r.hasDiagnostics then some r else none
        tryCandidates env file name rest broken
    else tryCandidates env file name rest broken

def noOwner (file : Location) : Diagnostic :=
  ⟨.noOwner, file.path, "No project or script in the workspace includes " ++ file.text⟩

/-- The result of the script or project that compiles the file at `file`. A
script compiles itself. -/
def ownerOf (env : Surroundings σ) (file : Location) :
    Act σ (Except (List Diagnostic) Resolution) := do
  if Kind.ofPath? file.path = some .script then
    match ← env.identify file.path with
    | .ok id => return surface (← resolve env id)
    | .error _ => return .error [noOwner file]
  else
    let c ← cache
    let ix ← index
    match resolvedOwner? c ix.projects file with
    | some r => return surface r
    | none =>
      let name := file.fileName?.getD file.text
      match ← tryCandidates env file name (candidates c ix) none with
      | .ok r => return surface r
      | .error (some broken) => return .error broken.diagnostics
      | .error none => return .error [noOwner file]

/-- The result of the script or project that compiles a file, or what stands in the way. -/
def owner (env : Surroundings σ) (source : Path) : Act σ (Except (List Diagnostic) Resolution) := do
  ownerOf env (← env.place source)

/-! ## Visibility -/

/-- Whether the file at `from_`, compiled by `owner`, sees the file at `target`: in one project a
file sees itself and those before it; across projects it sees every source of what its owner
references, directly or not. -/
def sees (owner : Resolution) (target from_ : Location) : Bool :=
  match owner.sourceIndex? target with
  | some i =>
    match owner.sourceIndex? from_ with
    | some j => i ≤ j
    | none => false
  | none => (Resolution.dependencyOrder [owner]).any (·.containsSource target)

/-- Whether the declarations of `target` can be seen from `from_`. -/
def isVisible (env : Surroundings σ) (target from_ : Path) : Act σ Bool := do
  let target ← env.place target
  let from_ ← env.place from_
  match ← owner env from_.path with
  | .ok r => return sees r target from_
  | .error _ => return false

/-! ## Orders -/

/-- Every known file that has a result, with what it references, dependencies first. -/
def openProjects : Act σ (List Resolution) := do
  let c ← cache
  let ix ← index
  return Resolution.dependencyOrder (ix.projects.filterMap fun id => c.peek id.location)

/-- A script or project and everything that it references, dependencies first. -/
def dependenciesOf (env : Surroundings σ) (id : Identity) :
    Act σ (Except Misuse (List Resolution)) := do
  match ← options env id with
  | .ok r => return .ok (Resolution.dependencyOrder [r])
  | .error m => return .error m

/-- Resolves files one after the other, up to the first that has no options. -/
def resolveEach (env : Surroundings σ) : List Identity → Act σ (Except Misuse Unit)
  | [] => return .ok ()
  | id :: rest => do
    match ← options env id with
    | .ok _ => resolveEach env rest
    | .error m => return .error m

/-- Every known script and project, resolved if it was not, with what it references,
dependencies first. -/
def allProjects (env : Surroundings σ) : Act σ (Except Misuse (List Resolution)) := do
  let ix ← index
  match ← resolveEach env ix.projects with
  | .ok () => return .ok (← openProjects)
  | .error m => return .error m

end FSharpWorkspace.Act
