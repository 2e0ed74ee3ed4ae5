import FSharpWorkspace.Cache.Threads
/-!
# Programs of cache operations

A program is a list of operations on one cache of texts. A `get` whose entry is uncomputed runs a
supplier, and the supplier may itself run operations (`body`), at any depth, before it returns
its value or panics. A panic is caught by the `get` that ran the supplier, or it unwinds to the
caller of that `get`.

`Op.run` executes a program on one thread. Answers are collected also from a body that panics.
-/

set_option autoImplicit false

namespace FSharpWorkspace.Cache

inductive Op where
  /-- Ask for a file. The supplier runs `body`, then panics or returns `value`, which is stale for a
  change of any file in `stale`. -/
  | get (id : Identity) (value : String) (body : List Op)
      (stale : List Location) (panics caught : Bool)
  /-- Look at the value of a file without computing it. -/
  | peek (l : Location)
  | invalidate (l : Location)
  /-- The files that have a value, in order. -/
  | computed
  | size
  /-- Keep the entry of a file, made if need be, under a name. -/
  | keep (id : Identity) (name : String)
  /-- Look at a kept entry. -/
  | entry (name : String)
  /-- Several threads ask for one file at once. -/
  | parallel (id : Identity) (value : String) (threads : Nat)
  /-- One thread for each file computes it and asks for the next one meanwhile. -/
  | ring (ids : List Identity)
  /-- An operation whose file is no identity. -/
  | misused (misuse : Misuse)
deriving Repr

inductive Answer where
  | got (outcome : Outcome String) (calls : Nat) (body : List Answer)
  | value (v : Option String)
  | flag (b : Bool)
  | table (values : List (Location × String))
  | size (n : Nat)
  | nothing
  | entry (l : Location) (v : Option String)
  | noEntry
  | crowd (outcomes : List (Outcome String)) (calls : Nat)
  | ring (outcomes : List (Outcome String)) (cycles : Nat)
  | misuse (m : Misuse)
deriving Repr

/-- The state of a program: the cache, how many suppliers a `get` has started,
and the kept entries. -/
structure Session where
  cache : Cache String
  calls : Nat
  kept : List (String × Serial)
deriving Repr

namespace Session

def start : Session := ⟨.empty, 0, []⟩

/-- The thread that runs programs. -/
def me : Thread := 0

end Session

def sortedValues {ν : Type} (c : Cache ν) : List (Location × ν) :=
  (c.computed.map fun (id, v) => (id.location, v)).mergeSort fun a b => (compare a.1 b.1).isLE

namespace Op

mutual

/-- Runs one operation. The flag says that a panic unwinds past it. -/
def run (op : Op) (σ : Session) : (Answer × Bool) × Session :=
  match op with
  | .get id value body stale panics caught =>
    match σ.cache.start Session.me id with
    | (.ready v, cache) => ((.got (.value v) σ.calls [], false), { σ with cache })
    | (.refused id, cache) => ((.got (.cycle id) σ.calls [], false), { σ with cache })
    | (.blocked _, cache) => ((.got .panic σ.calls [], true), { σ with cache })
    | (.claimed s _, cache) =>
      let ((answers, unwinds), σ) := runAll body { σ with cache, calls := σ.calls + 1 }
      if unwinds || panics then
        ((.got .panic σ.calls answers, !caught), { σ with cache := σ.cache.abandon s })
      else
        ((.got (.value value) σ.calls answers, false),
          { σ with cache := σ.cache.finish s value fun _ l => stale.contains l })
  | .peek l => ((.value (σ.cache.peek l), false), σ)
  | .invalidate l =>
    ((.flag (σ.cache.contains l), false), { σ with cache := σ.cache.invalidate l })
  | .computed => ((.table (sortedValues σ.cache), false), σ)
  | .size => ((.size σ.cache.size, false), σ)
  | .keep id name =>
    let (s, cache) := σ.cache.getOrCreate id
    ((.nothing, false), { σ with cache, kept := (name, s) :: σ.kept })
  | .entry name =>
    match (σ.kept.lookup name).bind (σ.cache.entries[·]?) with
    | some e => ((.entry e.id.location e.value?, false), σ)
    | none => ((.noEntry, false), σ)
  | .parallel id value threads =>
    let crew := (Crew.assemble σ.cache (Session.me + 1) (Crew.sameFile id value threads)).run
      (Crew.fairSchedule threads)
    ((.crowd crew.outcomes crew.suppliersRun, false), { σ with cache := crew.crowd.cache })
  | .ring ids =>
    let crew :=
      (Crew.assemble σ.cache (Session.me + 1) (Crew.ring (fun i => "ring" ++ toString i) ids)).run
      (Crew.fairSchedule ids.length)
    ((.ring crew.outcomes crew.refusals, false), { σ with cache := crew.crowd.cache })
  | .misused m => ((.misuse m, false), σ)

/-- Runs operations one after the other, up to one that lets a panic through. -/
def runAll (ops : List Op) (σ : Session) : (List Answer × Bool) × Session :=
  match ops with
  | [] => (([], false), σ)
  | op :: rest =>
    let ((answer, unwinds), σ) := run op σ
    if unwinds then (([answer], true), σ)
    else
      let ((answers, unwinds), σ) := runAll rest σ
      ((answer :: answers, unwinds), σ)

end

end Op

def answers (ops : List Op) : List Answer := (Op.runAll ops Session.start).1.1

end FSharpWorkspace.Cache
