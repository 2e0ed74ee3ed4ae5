import FSharpWorkspace.Diagnostic
import FSharpWorkspace.Identity
/-!
# Resolutions

A `Resolution` is what a script or a project resolves to: its sources in compilation order, its
flags, and the resolutions of the projects it references, held by value. So a resolved graph is a
tree of results in which one result may occur many times; `stamp` tells whether two occurrences
are the same result.

`dependsOn` reads the edges along which a change travels: the declared references, whether they were
resolved or not, and for scripts the loaded files. `derivedFrom` follows them through the held
results. `dependencyOrder` lists the results reachable from some roots, each file once and each
dependency before its dependents.
-/

set_option autoImplicit false

namespace FSharpWorkspace

/-- When the files behind a result were last written: at a tick of the clock of the file system, or,
where no file says so, at the time of the wall clock. -/
inductive LoadTime where
  | at (tick : Nat)
  | now
deriving DecidableEq, Repr

/-- The resolved options of one script or project. -/
structure Resolution where
  /-- Which result this is; results made at different times have different stamps. -/
  stamp : Nat
  id : Identity
  /-- The sources, earlier ones compiled first. -/
  sources : List Location
  flags : List String
  /-- The referenced projects that were resolved, each with the artifact it had at that time. -/
  references : List (Option Location × Resolution)
  /-- Every declared project reference, resolved or not. -/
  declared : List Identity
  /-- The projects of the reference circle found through this one, from the
  project it returns to. -/
  cycle : List Identity
  target : Option Location
  loadTime : LoadTime
  diagnostics : List Diagnostic
deriving Repr

namespace Resolution

/-! ## Building -/

/-- A result with nothing in it. -/
def empty (stamp : Nat) (id : Identity) (loadTime : LoadTime) : Resolution :=
  { stamp, id, sources := [], flags := [], references := [], declared := [], cycle := [],
    target := none, loadTime, diagnostics := [] }

def failed (stamp : Nat) (id : Identity) (diagnostic : Diagnostic)
    (loadTime : LoadTime) : Resolution :=
  { empty stamp id loadTime with diagnostics := [diagnostic] }

/-! ## Reading -/

def sourceIndex? (r : Resolution) (file : Location) : Option Nat := r.sources.findIdx? (· = file)

def containsSource (r : Resolution) (file : Location) : Bool := r.sources.contains file

def hasDiagnostics (r : Resolution) : Bool := !r.diagnostics.isEmpty

def isCyclic (r : Resolution) : Bool := !r.cycle.isEmpty

/-- Whether a change of the file at `changed` makes this very result stale. -/
def dependsOn (r : Resolution) (changed : Location) : Bool :=
  if r.id.location = changed then false
  else Identity.isAmong changed r.declared || r.containsSource changed

/-! ## Held results -/

mutual

/-- Looks for a result that depends on `changed`, through the references of `r`, last reference
first, without entering a file twice. `none` says that one was found; otherwise the files
entered are returned. -/
def searchDependent (changed : Location) (r : Resolution) (entered : List Location) :
    Option (List Location) :=
  match r with
  | { stamp, id, sources, flags, references, declared, cycle, target, loadTime, diagnostics } =>
    if entered.contains id.location then some entered
    else if dependsOn ⟨stamp, id, sources, flags, references, declared, cycle, target, loadTime,
        diagnostics⟩ changed then none
    else searchDependents changed references (id.location :: entered)

/-- `searchDependent` on every result of a list, from its end. -/
def searchDependents (changed : Location) (references : List (Option Location × Resolution))
    (entered : List Location) : Option (List Location) :=
  match references with
  | [] => some entered
  | (_, r) :: rest => (searchDependents changed rest entered).bind (searchDependent changed r)

end

/-- Whether this result, or one that it holds, depends on the file at `changed`. -/
def derivedFrom (r : Resolution) (changed : Location) : Bool :=
  (searchDependent changed r []).isNone

/-! ## Dependency order -/

/-- The state of a walk: the files entered, and the results left, the latest first. -/
structure Walk where
  entered : List Location
  left : List Resolution

mutual

/-- Enters a result, unless its file was entered before, and leaves it after all
that it references. -/
def visit (r : Resolution) (walk : Walk) : Walk :=
  match r with
  | { stamp, id, sources, flags, references, declared, cycle, target, loadTime, diagnostics } =>
    if walk.entered.contains id.location then walk
    else
      let walk := visitAll references { walk with entered := id.location :: walk.entered }
      { walk with
        left :=
          ⟨stamp, id, sources, flags, references, declared, cycle, target, loadTime, diagnostics⟩ ::
            walk.left }

/-- Enters the results of a list one after the other. -/
def visitAll (references : List (Option Location × Resolution)) (walk : Walk) : Walk :=
  match references with
  | [] => walk
  | (_, r) :: rest => visitAll rest (visit r walk)

end

/-- The results reachable from `roots`, each file once, every dependency before its dependents. -/
def dependencyOrder (roots : List Resolution) : List Resolution :=
  (roots.foldl (fun walk root => visit root walk) ⟨[], []⟩).left.reverse

/-! ## Small lemmas -/

theorem hasDiagnostics_failed (stamp : Nat) (id : Identity) (diagnostic : Diagnostic)
    (loadTime : LoadTime) : (failed stamp id diagnostic loadTime).hasDiagnostics = true := rfl

theorem not_dependsOn_self (r : Resolution) : r.dependsOn r.id.location = false := by
  simp [dependsOn]

/-- The search through one result, with its fields named. -/
theorem searchDependent_eq (changed : Location) (r : Resolution) (entered : List Location) :
    searchDependent changed r entered =
      if entered.contains r.id.location then some entered
      else if r.dependsOn changed then none
      else searchDependents changed r.references (r.id.location :: entered) := by
  cases r
  rfl

/-- The visit of one result, with its fields named. -/
theorem visit_eq (r : Resolution) (walk : Walk) :
    r.visit walk =
      if walk.entered.contains r.id.location then walk
      else
        { visitAll r.references { walk with entered := r.id.location :: walk.entered } with
          left := r :: (visitAll r.references
            { walk with entered := r.id.location :: walk.entered }).left } := by
  cases r
  rfl

end Resolution

end FSharpWorkspace
