import FSharpWorkspace.Identity
/-!
# The memoizing cache

One entry per file holds the value computed for it. An entry is uncomputed, in progress on some
thread, or done. Invalidation takes an entry out of the map for good; a later request makes a fresh
one. The entry itself may live on, in progress or in somebody's hands, so the cache keeps every
entry ever made, numbered by its serial, and `listed` says which of them the map still holds.

A thread that asks for an entry in progress would wait for its owner. Before it does, it follows the
chain from the owner to the entry the owner waits for, to that entry's owner, and so on; if the
chain comes back, the request is refused (`Request.refused`).

While an entry is in progress it collects the files invalidated meanwhile. When its value arrives,
the value is kept only if it is not stale for any of them (`Cache.finish`).

The functions here are the steps that happen under a lock. A single thread composes them in
`Cache.Program`, several threads interleave them in `Cache.Threads`.
-/

set_option autoImplicit false

namespace FSharpWorkspace

abbrev Thread := Nat

/-- The number of an entry, in the order in which entries were made. -/
abbrev Serial := Nat

/-! ## Entries -/

/-- What an entry holds. `marks` are the files invalidated since its computation started. -/
inductive EntryState (ν : Type) where
  | uncomputed
  | inProgress (owner : Thread) (marks : List Location)
  | done (value : ν)
deriving Repr

/-- The thread that computes an entry. -/
def EntryState.owner? {ν : Type} : EntryState ν → Option Thread
  | inProgress owner _ => some owner
  | _ => none

structure Entry (ν : Type) where
  id : Identity
  /-- Whether the map still holds the entry. -/
  listed : Bool
  state : EntryState ν
deriving Repr

namespace Entry

variable {ν : Type}

def value? (e : Entry ν) : Option ν :=
  match e.state with
  | .done v => some v
  | _ => none

def isComputed (e : Entry ν) : Bool := e.value?.isSome

/-- The entry after the file at `l` was invalidated elsewhere. -/
def mark (l : Location) (e : Entry ν) : Entry ν :=
  match e.state with
  | .inProgress owner marks => { e with state := .inProgress owner (marks ++ [l]) }
  | _ => e

end Entry

/-! ## Who waits for whom -/

/-- Which thread computes which entry, and which entry each blocked thread waits for. -/
structure WaitGraph where
  owners : List (Serial × Thread)
  waiting : List (Thread × Serial)
deriving Repr

namespace WaitGraph

def empty : WaitGraph := ⟨[], []⟩

def own (w : WaitGraph) (s : Serial) (t : Thread) : WaitGraph :=
  { w with owners := (s, t) :: w.owners.filter (·.1 ≠ s) }

def disown (w : WaitGraph) (s : Serial) : WaitGraph :=
  { w with owners := w.owners.filter (·.1 ≠ s) }

def wait (w : WaitGraph) (t : Thread) (s : Serial) : WaitGraph :=
  { w with waiting := (t, s) :: w.waiting.filter (·.1 ≠ t) }

def wake (w : WaitGraph) (t : Thread) : WaitGraph :=
  { w with waiting := w.waiting.filter (·.1 ≠ t) }

/-- The owner of the entry that a thread waits for. -/
def next? (w : WaitGraph) (t : Thread) : Option Thread :=
  (w.waiting.lookup t).bind fun s => w.owners.lookup s

/-- Whether following the waits from `owner` meets `me` within the given number of threads. -/
def meets (w : WaitGraph) (me : Thread) : Nat → Thread → Bool
  | 0, _ => false
  | n + 1, owner =>
    if owner = me then true
    else
      match w.next? owner with
      | some next => w.meets me n next
      | none => false

/-- Whether `me` waiting for an entry of `owner` would close a circle. There is one more thread to
look at than there are threads that wait. -/
def leadsBack (w : WaitGraph) (me owner : Thread) : Bool := w.meets me (w.waiting.length + 1) owner

end WaitGraph

/-! ## The cache -/

/-- The cache: every entry ever made, at the position of its serial, and the waits. -/
structure Cache (ν : Type) where
  entries : List (Entry ν)
  waits : WaitGraph
deriving Repr

/-- What a thread learns when it asks for an entry. -/
inductive Request (ν : Type) where
  /-- The value is there. -/
  | ready (value : ν)
  /-- The caller is to compute the value and hand it to the entry with this serial. -/
  | claimed (serial : Serial) (id : Identity)
  /-- Waiting would never end. -/
  | refused (id : Identity)
  /-- Another thread computes the value. -/
  | blocked (serial : Serial)
deriving Repr

namespace Cache

variable {ν : Type}

def empty : Cache ν := ⟨[], .empty⟩

/-- Whether an entry is the one that the map holds for the file at `l`. -/
def holds (l : Location) (e : Entry ν) : Bool := e.listed && decide (e.id.location = l)

def serial? (c : Cache ν) (l : Location) : Option Serial := c.entries.findIdx? (holds l)

def entry? (c : Cache ν) (l : Location) : Option (Entry ν) := c.entries.find? (holds l)

def listed (c : Cache ν) : List (Entry ν) := c.entries.filter (·.listed)

/-- The serial of the entry for a file, made if there is none. -/
def getOrCreate (c : Cache ν) (id : Identity) : Serial × Cache ν :=
  match c.serial? id.location with
  | some s => (s, c)
  | none => (c.entries.length, { c with entries := c.entries ++ [⟨id, true, .uncomputed⟩] })

def setState (c : Cache ν) (s : Serial) (state : EntryState ν) : Cache ν :=
  { c with entries := c.entries.modify s ({ · with state }) }

/-- The state of the entry with a serial. An entry not made yet is uncomputed. -/
def stateAt (c : Cache ν) (s : Serial) : EntryState ν := (c.entries[s]?).elim .uncomputed (·.state)

def ownerAt (c : Cache ν) (s : Serial) : Option Thread := (c.stateAt s).owner?

/-- A thread asks for the entry with serial `s`, which is that of the file `id`: it gets the value,
or becomes the owner of the entry, or would have to wait for the owner, which is refused if it
closes a circle and recorded otherwise. -/
def request (c : Cache ν) (me : Thread) (s : Serial) (id : Identity) : Request ν × Cache ν :=
  match c.stateAt s with
  | .done v => (.ready v, c)
  | .uncomputed =>
    (.claimed s id, { c.setState s (.inProgress me []) with waits := c.waits.own s me })
  | .inProgress owner _ =>
    if c.waits.leadsBack me owner then (.refused id, c)
    else (.blocked s, { c with waits := c.waits.wait me s })

/-- A thread asks for a file. The entry keeps the identity under which it was made. -/
def start (c : Cache ν) (me : Thread) (id : Identity) : Request ν × Cache ν :=
  let (s, c) := c.getOrCreate id
  c.request me s ((c.entries[s]?).elim id (·.id))

def isStale (stale : ν → Location → Bool) (value : ν) (marks : List Location) : Bool :=
  marks.any (stale value)

/-- The state of an entry after the value `v` was handed in to it. -/
def handedIn (stale : ν → Location → Bool) (v : ν) : EntryState ν → EntryState ν
  | .inProgress _ marks => if isStale stale v marks then .uncomputed else .done v
  | _ => .done v

/-- The owner of an entry hands in its value. The entry keeps it unless it is stale for a file that
was invalidated meanwhile; then the entry is uncomputed again. -/
def finish (c : Cache ν) (s : Serial) (value : ν) (stale : ν → Location → Bool) : Cache ν :=
  { c.setState s (handedIn stale value (c.stateAt s)) with waits := c.waits.disown s }

def abandon (c : Cache ν) (s : Serial) : Cache ν :=
  { c.setState s .uncomputed with waits := c.waits.disown s }

def peek (c : Cache ν) (l : Location) : Option ν := (c.entry? l).bind Entry.value?

def contains (c : Cache ν) (l : Location) : Bool := (c.entry? l).isSome

/-- Takes the entry of a file out of the map and marks every entry of the map
that is in progress. -/
def invalidate (c : Cache ν) (l : Location) : Cache ν :=
  let entries := c.entries.map fun e => if holds l e then { e with listed := false } else e
  { c with entries := entries.map fun e => if e.listed then e.mark l else e }

def computed (c : Cache ν) : List (Identity × ν) :=
  c.listed.filterMap fun e => e.value?.map (e.id, ·)

def size (c : Cache ν) : Nat := c.listed.length

/-! ## The cascade -/

/-- Works off a list of changed files: each is invalidated once, and the files whose values depend
on it are added to the list. Every round but the first takes an entry out of the map, so `rounds`
need not exceed their number by more than one. -/
def cascadeFrom (depends : ν → Location → Bool) :
    Nat → List Location → List Location → Cache ν → Cache ν
  | 0, _, _, c => c
  | rounds + 1, pending, seen, c =>
    match pending.dropWhile seen.contains with
    | [] => c
    | l :: pending =>
      let c := c.invalidate l
      let dependents := (c.computed.filter fun entry => depends entry.2 l).map (·.1.location)
      cascadeFrom depends rounds (dependents ++ pending) (l :: seen) c

/-- The cache after the file at `l` changed: its entry and those of the values that depend on it,
directly or through other computed values, are gone. -/
def cascade (c : Cache ν) (depends : ν → Location → Bool) (l : Location) : Cache ν :=
  cascadeFrom depends (c.entries.length + 1) [l] [] c

end Cache

end FSharpWorkspace
