import FSharpWorkspace.Cache.Basic
/-!
# Many threads at one cache

A `Crowd` is the cache together with the threads that are in the middle of something. Its moves are
what one thread does while it holds a lock, and between two moves of a thread others may move. So
whatever takes two locks one after the other is more than one move:

* A thread finds the entry of a file (`find`), and then looks what it holds (`look`). If the entry
  is in progress, the thread is refused, or it sleeps there.
* A sleeping thread that was told to look again first stops waiting (`rise`) and then
  looks at the entry.
* The owner of an entry first stops being its owner (`leave`), then writes what became of it
  (`write`), and then tells those who sleep there (`tell`). In between, another thread may find the
  entry still in progress, or take it.

A `Crew` runs threads that each compute one entry and may ask for a second one meanwhile, one move
at a time, in the order that a schedule gives. The schedule may also stir a sleeping thread.
-/

set_option autoImplicit false

namespace FSharpWorkspace

/-- A cache, and the threads that are in the middle of something. -/
structure Crowd (ν : Type) where
  cache : Cache ν
  /-- The sleeping threads that were told to look again. -/
  woken : List Thread
  /-- The threads that are owners no more, and have not yet written what became of the entry. -/
  leaving : List (Thread × Serial)
deriving Repr

def neverStale {ν : Type} (_ : ν) (_ : Location) : Bool := false

namespace Crowd

variable {ν : Type}

def gather (c : Cache ν) : Crowd ν := ⟨c, [], []⟩

/-! ## Moves -/

def isAsleep (k : Crowd ν) (t : Thread) : Bool := (k.cache.waits.waiting.lookup t).isSome

def isLeaving (k : Crowd ν) (t : Thread) : Bool := k.leaving.any (·.1 = t)

def isFree (k : Crowd ν) (t : Thread) : Bool := !k.isAsleep t && !k.isLeaving t

def waiters (k : Crowd ν) (s : Serial) : List Thread :=
  (k.cache.waits.waiting.filter (·.2 = s)).map (·.1)

/-- A thread gets hold of the entry for a file, made if there is none. -/
def find (k : Crowd ν) (id : Identity) : Serial × Crowd ν :=
  let (s, cache) := k.cache.getOrCreate id
  (s, { k with cache })

/-- A thread looks at an entry: it gets the value, becomes the owner, is
refused, or goes to sleep. -/
def look (k : Crowd ν) (t : Thread) (s : Serial) : Option (Request ν × Crowd ν) :=
  if k.isFree t then
    (k.cache.entries[s]?).map fun e =>
      let (answer, cache) := k.cache.request t s e.id
      (answer, { k with cache })
  else none

/-- A sleeping thread that was told to look again stops waiting. -/
def rise (k : Crowd ν) (t : Thread) : Option (Crowd ν) :=
  if k.isAsleep t && k.woken.contains t then
    some { k with
      cache := { k.cache with waits := k.cache.waits.wake t }
      woken := k.woken.filter (· ≠ t) }
  else none

/-- The thread that computes an entry stops being its owner. -/
def leave (k : Crowd ν) (t : Thread) (s : Serial) : Option (Crowd ν) :=
  if k.isFree t && k.cache.ownerAt s = some t then
    some { k with
      cache := { k.cache with waits := k.cache.waits.disown s }
      leaving := (t, s) :: k.leaving }
  else none

/-- A thread that left an entry writes what became of it: the value handed in, or
nothing if it gave up. -/
def write (k : Crowd ν) (t : Thread) (s : Serial) (result : Option ν)
    (stale : ν → Location → Bool) :
    Option (Crowd ν) :=
  if k.leaving.contains (t, s) then
    some { k with
      cache := k.cache.setState s (result.elim .uncomputed fun v =>
        Cache.handedIn stale v (k.cache.stateAt s))
      leaving := k.leaving.filter (· ≠ (t, s)) }
  else none

/-- Those who sleep at an entry are told to look again. -/
def tell (k : Crowd ν) (s : Serial) : Crowd ν := { k with woken := k.woken ++ k.waiters s }

/-- What happens to a crowd while somebody holds a lock. -/
inductive Move (ν : Type) where
  | find (id : Identity)
  | look (t : Thread) (s : Serial)
  | rise (t : Thread)
  | leave (t : Thread) (s : Serial)
  | write (t : Thread) (s : Serial) (result : Option ν) (stale : ν → Location → Bool)
  /-- Threads may be told to look again for no reason. -/
  | tell (s : Serial)
  | invalidate (l : Location)

/-- The crowd after a move, if it can be made. -/
def after (k : Crowd ν) : Move ν → Option (Crowd ν)
  | .find id => some (k.find id).2
  | .look t s => (k.look t s).map (·.2)
  | .rise t => k.rise t
  | .leave t s => k.leave t s
  | .write t s result stale => k.write t s result stale
  | .tell s => some (k.tell s)
  | .invalidate l => some { k with cache := k.cache.invalidate l }

def run : List (Move ν) → Crowd ν → Option (Crowd ν)
  | [], k => some k
  | move :: moves, k => (k.after move).bind (run moves)

/-- A thread that leaves an entry and then writes into it has handed in its value. -/
theorem finish_eq (c : Cache ν) (s : Serial) (v : ν) (stale : ν → Location → Bool) :
    c.finish s v stale =
      Cache.setState { c with waits := c.waits.disown s } s
        (Cache.handedIn stale v (c.stateAt s)) := rfl

/-- A thread that leaves an entry and then writes nothing into it has given up. -/
theorem abandon_eq (c : Cache ν) (s : Serial) :
    c.abandon s = Cache.setState { c with waits := c.waits.disown s } s .uncomputed := rfl

end Crowd

/-! ## Crews -/

/-- How a request ended for the one who made it. -/
inductive Outcome (ν : Type) where
  | value (v : ν)
  | cycle (id : Identity)
  | panic
deriving Repr

def cycleText (id : Identity) : String := "cyclic dependency on `" ++ id.text ++ "`"

/-- What one thread of a crew has to do: compute the value of a file and, if `next` names one, ask
for a second file once everybody computes. A thread that has to compute the second file as well
gives it the same value. -/
structure Task (ν : Type) where
  id : Identity
  value : ν
  panics : Bool
  next : Option Identity
deriving Repr

def Task.result {ν : Type} (task : Task ν) : Option ν :=
  if task.panics then none else some task.value

/-- How far the owner of an entry is with handing in its result. -/
inductive Closing where
  /-- It is about to leave the entry. -/
  | leave
  /-- It is about to write the result. -/
  | write
  /-- It is about to tell those who sleep there. -/
  | tell
deriving DecidableEq, Repr

/-- How far a thread of a crew is. Where it turns to an entry, `inside` is the one that it
computes meanwhile. -/
inductive Stage (ν : Type) where
  /-- It has not asked yet. -/
  | ready
  /-- It has the entry, and is about to look at it. -/
  | looking (inside : Option Serial) (s : Serial)
  /-- It waits for somebody who computes the entry. -/
  | asleep (inside : Option Serial) (s : Serial)
  /-- It was told to look at the entry again, and is about to do so. -/
  | awake (inside : Option Serial) (s : Serial)
  /-- Its supplier runs. -/
  | computing (s : Serial)
  /-- Its supplier has come to a result for `s`. It computes `outer` as well if that is given.
  `refused` says whether the request for the second file was. -/
  | closing (step : Closing) (s : Serial) (result : Option ν)
      (outer : Option Serial) (refused : Bool)
  /-- It is done; `computed` if it ran its supplier, `refused` if the second file was refused. -/
  | ended (outcome : Outcome ν) (computed refused : Bool)
deriving Repr

namespace Stage

variable {ν : Type}

/-- Whether the supplier of the thread has started. -/
def started : Stage ν → Bool
  | looking inside _ => inside.isSome
  | asleep inside _ => inside.isSome
  | awake inside _ => inside.isSome
  | computing _ => true
  | closing _ _ _ _ _ => true
  | ended _ _ _ => true
  | ready => false

def isEnded : Stage ν → Bool
  | ended _ _ _ => true
  | _ => false

end Stage

/-- A crowd and the threads that work on it; the thread at position `i` has the
number `first + i`. -/
structure Crew (ν : Type) where
  crowd : Crowd ν
  first : Thread
  members : List (Task ν × Stage ν)
deriving Repr

namespace Crew

variable {ν : Type}

/-- The stage after a look at an entry. -/
def answered (task : Task ν) : Option Serial → Request ν → Stage ν
  | none, .ready v => .ended (.value v) false false
  | none, .claimed s _ => .computing s
  | none, .refused id => .ended (.cycle id) false false
  | some s, .ready _ => .closing .leave s task.result none false
  | some s, .claimed s' _ => .closing .leave s' (some task.value) (some s) false
  | some s, .refused _ => .closing .leave s task.result none true
  | inside, .blocked s => .asleep inside s

/-- The stage after an entry is closed: the thread turns to the entry further out, or is done. -/
def closed (task : Task ν) (result : Option ν) (refused : Bool) : Option Serial → Stage ν
  | some s => .closing .leave s task.result none refused
  | none => .ended (result.elim .panic .value) true refused

/-- The next move of one thread, if it can make one. `gathered` says that every thread of
the crew has started. -/
def advance (k : Crowd ν) (t : Thread) (gathered : Bool) (task : Task ν) :
    Stage ν → Option (Stage ν × Crowd ν)
  | .ready =>
    let (s, k) := k.find task.id
    some (.looking none s, k)
  | .looking inside s => (k.look t s).map fun (answer, k) => (answered task inside answer, k)
  | .asleep inside s => (k.rise t).map (.awake inside s, ·)
  | .awake inside s => (k.look t s).map fun (answer, k) => (answered task inside answer, k)
  | .computing s =>
    match task.next with
    | none => some (.closing .leave s task.result none false, k)
    | some id =>
      if gathered then
        let (s', k) := k.find id
        some (.looking (some s) s', k)
      else none
  | .closing .leave s result outer refused =>
    (k.leave t s).map (.closing .write s result outer refused, ·)
  | .closing .write s result outer refused =>
    (k.write t s result neverStale).map (.closing .tell s result outer refused, ·)
  | .closing .tell s result outer refused => some (closed task result refused outer, k.tell s)
  | .ended _ _ _ => none

def gathered (crew : Crew ν) : Bool := crew.members.all (·.2.started)

/-- One turn of the thread at position `i`; a thread that cannot move lets it pass. -/
def turn (crew : Crew ν) (i : Nat) : Crew ν :=
  match crew.members[i]? with
  | none => crew
  | some (task, stage) =>
    match advance crew.crowd (crew.first + i) crew.gathered task stage with
    | none => crew
    | some (stage, crowd) => { crew with crowd, members := crew.members.set i (task, stage) }

/-- The thread at position `i` is told to look again for no reason, if it sleeps. -/
def stir (crew : Crew ν) (i : Nat) : Crew ν :=
  if crew.crowd.isAsleep (crew.first + i) then
    { crew with crowd := { crew.crowd with woken := (crew.first + i) :: crew.crowd.woken } }
  else crew

/-- What a schedule consists of. -/
inductive Event where
  /-- The thread at a position has its turn. -/
  | turn (i : Nat)
  /-- The thread at a position is stirred. -/
  | stir (i : Nat)
deriving DecidableEq, Repr

/-- The crew after an event. -/
def after (crew : Crew ν) : Event → Crew ν
  | .turn i => crew.turn i
  | .stir i => crew.stir i

def run (crew : Crew ν) (schedule : List Event) : Crew ν := schedule.foldl after crew

/-- So many rounds are enough for `size` threads, if everybody has a turn in each. -/
def patience (size : Nat) : Nat := size * (4 * size + 12)

def fairSchedule (size : Nat) : List Event :=
  ((List.replicate (patience size) (List.range size)).flatten).map .turn

def assemble (cache : Cache ν) (first : Thread) (tasks : List (Task ν)) : Crew ν :=
  { crowd := .gather cache, first, members := tasks.map (·, .ready) }

def outcomes (crew : Crew ν) : List (Outcome ν) :=
  crew.members.filterMap fun (_, stage) =>
    match stage with
    | .ended outcome _ _ => some outcome
    | _ => none

def suppliersRun (crew : Crew ν) : Nat :=
  crew.members.countP fun (_, stage) =>
    match stage with
    | .ended _ computed _ => computed
    | _ => false

def refusals (crew : Crew ν) : Nat :=
  crew.members.countP fun (_, stage) =>
    match stage with
    | .ended _ _ refused => refused
    | _ => false

def sameFile (id : Identity) (value : ν) (size : Nat) : List (Task ν) :=
  List.replicate size { id, value, panics := false, next := none }

/-- Threads in a ring: each computes its own file and asks for that of the next thread. -/
def ring (value : Nat → ν) (ids : List Identity) : List (Task ν) :=
  (ids.zip (ids.rotateLeft 1)).mapIdx fun i (id, next) =>
    { id, value := value i, panics := false, next := some next }

end Crew

end FSharpWorkspace
