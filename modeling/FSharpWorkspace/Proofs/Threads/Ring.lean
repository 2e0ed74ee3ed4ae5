import FSharpWorkspace.Proofs.Threads.Files
import FSharpWorkspace.Proofs.Threads.Rounds
/-!
# Threads in a ring

The threads of a ring each compute a file of their own. Once all have started, each asks for the
file of the next one, and the last for that of the first. `Crew.Circles` says what each stage means
for the entries of the two files, and `Crew.Ring` what holds of all of them together:

* While nobody was refused, nobody comes to an end: who gets the value of the next file has found it
  published, so the next thread has come to an end before (`Ring.silent`).
* No two threads are refused. Whoever is refused was led all the way around the ring, over
  threads that all sleep (`Ring.asleep_of_back`), and one that was refused before does not sleep
  any more (`Ring.unique`).
-/

set_option autoImplicit false

namespace FSharpWorkspace

open Relation

/-! ## Stages -/

namespace Stage

variable {ν : Type}

/-- Whether everybody must have started for a thread to get here. -/
def met : Stage ν → Bool
  | looking inside _ => inside.isSome
  | asleep inside _ => inside.isSome
  | awake inside _ => inside.isSome
  | closing _ _ _ _ _ => true
  | ended _ _ _ => true
  | _ => false

/-- Whether the supplier of the thread has come to a result. -/
def isPast : Stage ν → Bool
  | closing _ _ _ _ _ => true
  | ended _ _ _ => true
  | _ => false

/-- Whether the second request of the thread was refused. -/
def wasRefused : Stage ν → Bool
  | closing _ _ _ _ refused => refused
  | ended _ _ refused => refused
  | _ => false

end Stage

namespace Crew

variable {ν : Type}

/-- The stage of a thread that computes the file at `own`, whose value is `v`, and asks for
the file at `next`. -/
inductive Circles (c : Cache ν) (own next : Location) (v : ν) : Stage ν → Prop where
  | ready (free : ∀ s, c.serial? own = some s → c.stateAt s = .uncomputed) :
      Circles c own next v .ready
  | looking (s : Serial) (file : c.serial? own = some s) (free : c.stateAt s = .uncomputed) :
    Circles c own next v (.looking none s)
  | computing (s : Serial) (file : c.serial? own = some s) : Circles c own next v (.computing s)
  | asking (s r : Serial) (file : c.serial? own = some s) (other : c.serial? next = some r) :
    Circles c own next v (.looking (some s) r)
  | asleep (s r : Serial) (file : c.serial? own = some s) (other : c.serial? next = some r) :
    Circles c own next v (.asleep (some s) r)
  | awake (s r : Serial) (file : c.serial? own = some s) (other : c.serial? next = some r) :
    Circles c own next v (.awake (some s) r)
  | closing (step : Closing) (s : Serial) (refused : Bool) (file : c.serial? own = some s)
    (kept : step = .tell → c.stateAt s = .done v) :
      Circles c own next v (.closing step s (some v) none refused)
  | ended (s : Serial) (refused : Bool) (file : c.serial? own = some s)
      (kept : c.stateAt s = .done v) :
    Circles c own next v (.ended (.value v) true refused)

section Circles

variable {c c' : Cache ν} {own next : Location} {v : ν} {stage : Stage ν}

theorem Circles.later (h : Circles c own next v stage)
    (hserial : ∀ l s, c.serial? l = some s → c'.serial? l = some s)
    (hdone : ∀ s u, c.stateAt s = .done u → c'.stateAt s = .done u)
    (hfree : stage.started = false → (∀ s, c.serial? own = some s → c.stateAt s = .uncomputed) →
      ∀ s, c'.serial? own = some s → c'.stateAt s = .uncomputed) : Circles c' own next v stage := by
  cases h with
  | ready free => exact .ready (hfree rfl free)
  | looking s file free =>
      refine .looking s (hserial own s file) (hfree rfl (fun r hr => ?_) s (hserial own s file))
      obtain rfl := Option.some.inj (file.symm.trans hr)
      exact free
  | computing s file => exact .computing s (hserial own s file)
  | asking s r file other => exact .asking s r (hserial own s file) (hserial next r other)
  | asleep s r file other => exact .asleep s r (hserial own s file) (hserial next r other)
  | awake s r file other => exact .awake s r (hserial own s file) (hserial next r other)
  | closing step s refused file kept =>
      exact .closing step s refused (hserial own s file) fun hs => hdone s v (kept hs)
  | ended s refused file kept => exact .ended s refused (hserial own s file) (hdone s v kept)

/-- A thread computes its own file and no other. -/
theorem Circles.serial_of_computes (h : Circles c own next v stage) {s : Serial}
    (hs : s ∈ stage.computes) :
    c.serial? own = some s := by
  cases h with
  | computing r file | asking r _ file | asleep r _ file | awake r _ file =>
      obtain rfl := List.mem_singleton.mp hs
      exact file
  | closing step r refused file =>
      cases step with
      | leave | write =>
          obtain rfl := List.mem_singleton.mp hs
          exact file
      | tell => cases hs
  | _ => cases hs

theorem Circles.serial_of_sleepsAt (h : Circles c own next v stage) {r : Serial}
    (hr : stage.sleepsAt = some r) :
    c.serial? next = some r ∧ ∃ s, stage = .asleep (some s) r := by
  cases h with
  | asleep s r' file other =>
      cases hr
      exact ⟨other, s, rfl⟩
  | _ => cases hr

/-- Who seeks another file than its own asks for the next one. -/
theorem Circles.serial_of_seeks (h : Circles c own next v stage) {s : Serial}
    (hs : stage.seeks = some s) :
    c.serial? own = some s ∨ stage.met = true := by
  cases h with
  | looking r file =>
      cases hs
      exact Or.inl file
  | asking | asleep | awake => exact Or.inr rfl
  | _ => cases hs

/-- A thread that has started computes its file, or has published the value. -/
theorem Circles.of_started (h : Circles c own next v stage) (hs : stage.started = true) :
    ∃ s, c.serial? own = some s ∧
      (s ∈ stage.computes ∨ (c.stateAt s = .done v ∧ stage.isPast = true)) := by
  cases h with
  | ready | looking => cases hs
  | computing s file | asking s _ file | asleep s _ file | awake s _ file =>
      exact ⟨s, file, Or.inl (List.mem_singleton_self s)⟩
  | closing step s refused file kept =>
      refine ⟨s, file, ?_⟩
      cases step with
      | leave | write => exact Or.inl (List.mem_singleton_self s)
      | tell => exact Or.inr ⟨kept rfl, rfl⟩
  | ended s refused file kept => exact ⟨s, file, Or.inr ⟨kept, rfl⟩⟩

/-- A thread requests its own file first, whose entry is free, and then the file of the next. -/
theorem Circles.eyes (h : Circles c own next v stage) {inside : Option Serial} {s : Serial}
    (eyes : stage = .looking inside s ∨ stage = .awake inside s) :
    (inside = none ∧ stage = .looking none s ∧ c.serial? own = some s ∧ c.stateAt s = .uncomputed) ∨
      ∃ r, inside = some r ∧ c.serial? own = some r ∧
        c.serial? next = some s ∧ stage.met = true := by
  rcases eyes with rfl | rfl
  · cases h with
    | looking _ file free => exact Or.inl ⟨rfl, rfl, file, free⟩
    | asking r _ file other => exact Or.inr ⟨r, rfl, file, other, rfl⟩
  · cases h with
    | awake r _ file other => exact Or.inr ⟨r, rfl, file, other, rfl⟩

end Circles

/-! ## One turn -/

section Turn

variable {k k' : Crowd ν} {t : Thread} {gathered : Bool} {task : Task ν} {stage stage' : Stage ν}
variable {own next : Location} {v : ν}

/-- What comes of the request for the next file, whose entry is not free: the thread falls asleep
or leaves its own. -/
theorem Circles.answered {c : Cache ν} {r s : Serial} {e : Entry ν} {answer : Request ν}
    (hfile : c.serial? own = some r) (hother : c.serial? next = some s)
    (looks : k.Looks t s e answer k') (htaken : e.state ≠ .uncomputed)
    (hresult : task.result = some v) :
    Circles c own next v (answered task (some r) answer) := by
  cases looks with
  | claimed h => exact absurd h htaken
  | ready u h =>
      simp only [Crew.answered, hresult]
      exact .closing .leave r false hfile fun h => by cases h
  | refused owner marks h back =>
      simp only [Crew.answered, hresult]
      exact .closing .leave r true hfile fun h => by cases h
  | blocked => exact .asleep r s hfile hother

/-- A turn of a thread of the ring. Once all have started, the entry of the
next file is not free. -/
theorem Circles.advance (h : Circles k.cache own next v stage)
    (ha : Advances k t gathered task stage stage' k') (hk : k.Sound) (hown : task.id.location = own)
    (hresult : task.result = some v) (hnext : ∃ id, task.next = some id ∧ id.location = next)
    (htaken : stage.met = true → ∀ r, k.cache.serial? next = some r →
      k.cache.stateAt r ≠ .uncomputed) :
    Circles k'.cache own next v stage' := by
  have hserial : ∀ l s, k.cache.serial? l = some s → k'.cache.serial? l = some s :=
    fun l s => ha.serial?_eq
  have hback : ∀ s, k'.cache.serial? own = some s → k.cache.serial? own = some s ∨
      k'.cache.stateAt s = .uncomputed :=
    fun s => ha.serial?_back
  cases ha with
  | find =>
      cases h with
      | ready free =>
          have hfile : (k.find task.id).2.cache.serial? own = some (k.find task.id).1 :=
            hown ▸ Cache.serial?_getOrCreate_self k.cache task.id
          refine .looking _ hfile ((hback _ hfile).elim (fun hold => ?_) id)
          exact (Cache.stateAt_getOrCreate _ _ _).trans (free _ hold)
  | look inside s eyes free entry looks =>
      have hst := Cache.stateAt_eq entry
      rcases h.eyes eyes with ⟨rfl, -, hfile, hfree⟩ | ⟨r, rfl, hfile, hother, hmet⟩
      · rw [looks.claimed_of_free (hst.symm.trans hfree)]
        exact .computing s (hserial own s hfile)
      · exact .answered (hserial own r hfile) (hserial next s hother) looks
          (fun h => htaken hmet s hother (hst.trans h)) hresult
  | rise inside s =>
      cases h with
      | asleep r _ file other => exact .awake r s (hserial own r file) (hserial next s other)
  | comes s hnone =>
      obtain ⟨id, hid, -⟩ := hnext
      cases hnone.symm.trans hid
  | asks s id hid =>
      obtain ⟨id', hid', hplace⟩ := hnext
      obtain rfl := Option.some.inj (hid.symm.trans hid')
      cases h with
      | computing _ file =>
          exact .asking s _ (hserial own s file)
            (hplace ▸ Cache.serial?_getOrCreate_self k.cache id)
  | leave s result outer refused =>
      cases h with
      | closing _ _ _ file =>
          exact .closing .write s refused (hserial own s file) fun h => by cases h
  | write s result outer refused hwrite =>
      cases h with
      | closing _ _ _ file =>
          refine .closing .tell s refused (hserial own s file) fun _ => ?_
          rw [stateAt_write hk hwrite, if_pos rfl]
          rfl
  | tell s result outer refused =>
      cases h with
      | closing _ _ _ file kept => exact .ended s refused file (kept rfl)

/-- A thread comes to an end after the value of the next file was there, or it was refused. -/
theorem Circles.past_of_advance (h : Circles k.cache own next v stage)
    (ha : Advances k t gathered task stage stage' k') (hnext : task.next ≠ none)
    (htaken : stage.met = true → ∀ r, k.cache.serial? next = some r →
      k.cache.stateAt r ≠ .uncomputed) (hp : stage'.isPast = true)
    (hr : stage'.wasRefused = false) :
    stage.isPast = true ∨ stage.met = true ∧ ∃ r u, k.cache.serial? next = some r ∧
      k.cache.stateAt r = .done u := by
  cases ha with
  | look inside s eyes free entry looks =>
      have hst := Cache.stateAt_eq entry
      rcases h.eyes eyes with ⟨rfl, -, -, hfree⟩ | ⟨r, rfl, -, hother, hmet⟩
      · rw [looks.claimed_of_free (hst.symm.trans hfree)] at hp
        cases hp
      · cases looks with
        | ready u h => exact Or.inr ⟨hmet, s, u, hother, hst.trans h⟩
        | refused => cases hr
        | claimed h => exact absurd (hst.trans h) (htaken hmet s hother)
        | blocked => cases hp
  | comes s hnone => exact absurd hnone hnext
  | leave | write | tell => exact Or.inl rfl
  | _ => cases hp

/-- A thread is refused when it asks for the next file and is led back to itself. -/
theorem Circles.refused_of_advance (h : Circles k.cache own next v stage)
    (ha : Advances k t gathered task stage stage' k') (hr : stage'.wasRefused = true) :
    stage.wasRefused = true ∨ ∃ inside r owner,
      (stage = .looking (some inside) r ∨ stage = .awake (some inside) r) ∧
      k.cache.ownerAt r = some owner ∧ ReflTransGen k.cache.waits.Follows owner t := by
  cases ha with
  | look inside s eyes free entry looks =>
      have hst := Cache.stateAt_eq entry
      rcases h.eyes eyes with ⟨rfl, -⟩ | ⟨r, rfl, -⟩
      · cases looks <;> cases hr
      · cases looks with
        | refused owner marks h back =>
            exact Or.inr ⟨r, s, owner, eyes, Cache.ownerAt_eq_some.mpr ⟨marks, hst.trans h⟩, back⟩
        | _ => cases hr
  | leave | write => exact Or.inl hr
  | tell s result outer refused =>
      cases h with
      | closing => exact Or.inl hr
  | _ => cases hr

theorem Circles.still_refused (h : Circles k.cache own next v stage)
    (ha : Advances k t gathered task stage stage' k') (hr : stage.wasRefused = true) :
    stage'.wasRefused = true := by
  cases ha with
  | look inside s eyes => rcases eyes with rfl | rfl <;> cases hr
  | leave | write => exact hr
  | tell s result outer refused =>
      cases h with
      | closing => exact hr
  | _ => cases hr

/-- Nobody asks for the next file before all have started. -/
theorem Circles.met_of_advance (h : Circles k.cache own next v stage)
    (ha : Advances k t gathered task stage stage' k') (hnext : task.next ≠ none)
    (hm : stage'.met = true) : stage.met = true ∨ gathered = true := by
  cases ha with
  | find => cases hm
  | look inside s eyes free entry looks =>
      left
      rcases h.eyes eyes with ⟨rfl, -, -, hfree⟩ | ⟨r, rfl, -, -, hmet⟩
      · rw [looks.claimed_of_free ((Cache.stateAt_eq entry).symm.trans hfree)] at hm
        cases hm
      · exact hmet
  | rise => exact Or.inl hm
  | comes s hnone => exact absurd hnone hnext
  | asks s id h all => exact Or.inr all
  | leave | write | tell => exact Or.inl rfl

end Turn

/-! ## The crew -/

def succ (n i : Nat) : Nat := (i + 1) % n

/-- What holds of `n` threads in a ring, of which thread `i` computes the file at `place i` and
gives it the value `value i`. -/
structure Ring (n : Nat) (place : Nat → Location) (value : Nat → ν) (crew : Crew ν) : Prop where
  size : crew.members.length = n
  tasks : ∀ i task stage, crew.Member i task stage → task.id.location = place i ∧
    task.result = some (value i) ∧ ∃ id, task.next = some id ∧ id.location = place (succ n i)
  stages : ∀ i task stage, crew.Member i task stage →
    Circles crew.crowd.cache (place i) (place (succ n i)) (value i) stage
  met : ∀ i task stage, crew.Member i task stage → stage.met = true → crew.gathered = true
  /-- While nobody was refused, nobody comes to an end. -/
  silent : (∀ i task stage, crew.Member i task stage → stage.wasRefused = false) →
    ∀ i task stage, crew.Member i task stage → stage.isPast = false
  /-- No two threads are refused. -/
  unique : ∀ i j task task' stage stage', crew.Member i task stage → crew.Member j task' stage' →
    stage.wasRefused = true → stage'.wasRefused = true → i = j

section Ring

variable {n : Nat} {place : Nat → Location} {value : Nat → ν} {crew : Crew ν} {i : Nat}
  {task : Task ν} {stage : Stage ν}

theorem succ_lt (hi : i < n) : succ n i < n := Nat.mod_lt _ (Nat.zero_lt_of_lt hi)

theorem Ring.exists_member (hr : Ring n place value crew) (hi : i < n) :
    ∃ task stage, crew.Member i task stage := by
  have hlt : i < crew.members.length := hr.size ▸ hi
  exact ⟨_, _, List.getElem?_eq_getElem hlt⟩

/-- Who asks for the next file finds that it is computed, or that its value is there and the
next thread past it. -/
theorem Ring.next_taken (hr : Ring n place value crew) (hm : crew.Member i task stage)
    (hmet : stage.met = true) :
    ∃ task' stage' r, crew.Member (succ n i) task' stage' ∧
      crew.crowd.cache.serial? (place (succ n i)) = some r ∧
      (r ∈ stage'.computes ∨
        (crew.crowd.cache.stateAt r = .done (value (succ n i)) ∧ stage'.isPast = true)) := by
  obtain ⟨task', stage', hm'⟩ := hr.exists_member (succ_lt (hr.size ▸ hm.lt))
  have hstarted := gathered_iff.mp (hr.met i task stage hm hmet) _ _ _ hm'
  obtain ⟨r, hfile, h⟩ := (hr.stages _ _ _ hm').of_started hstarted
  exact ⟨task', stage', r, hm', hfile, h⟩

theorem Ring.not_free (hr : Ring n place value crew) (hc : crew.Sound)
    (hm : crew.Member i task stage) (hmet : stage.met = true) {r : Serial}
    (hfile : crew.crowd.cache.serial? (place (succ n i)) = some r) :
    crew.crowd.cache.stateAt r ≠ .uncomputed := by
  intro hun
  obtain ⟨task', stage', r', hm', hfile', h | ⟨h, -⟩⟩ := hr.next_taken hm hmet
  · obtain rfl := Option.some.inj (hfile.symm.trans hfile')
    have howner := ((hc.does _).owns r).mpr (stageOf_eq hm' ▸ h)
    simp [Cache.ownerAt, hun, EntryState.owner?] at howner
  · obtain rfl := Option.some.inj (hfile.symm.trans hfile')
    cases hun.symm.trans h

theorem Ring.past_of_done (hr : Ring n place value crew) (hc : crew.Sound)
    (hm : crew.Member i task stage) (hmet : stage.met = true) {r : Serial} {v : ν}
    (hfile : crew.crowd.cache.serial? (place (succ n i)) = some r)
    (hdone : crew.crowd.cache.stateAt r = .done v) :
    ∃ task' stage', crew.Member (succ n i) task' stage' ∧ stage'.isPast = true := by
  obtain ⟨task', stage', r', hm', hfile', h | ⟨-, hpast⟩⟩ := hr.next_taken hm hmet
  · obtain rfl := Option.some.inj (hfile.symm.trans hfile')
    cases (Cache.ownerAt_of_done hdone).symm.trans (((hc.does _).owns r).mpr (stageOf_eq hm' ▸ h))
  · exact ⟨task', stage', hm', hpast⟩

variable (hapart : ∀ i < n, ∀ j < n, place i = place j → i = j)

include hapart

/-- The file of a thread is computed by nobody else. -/
theorem Ring.owner_eq (hr : Ring n place value crew) (hc : crew.Sound) (hi : i < n) {r : Serial}
    {u : Thread} (hfile : crew.crowd.cache.serial? (place i) = some r)
    (hu : crew.crowd.cache.ownerAt r = some u) :
    u = crew.first + i := by
  obtain ⟨j, task', stage', rfl, hj, hmem⟩ := hc.owner_member hu
  have hfile' := (hr.stages j task' stage' hj).serial_of_computes hmem
  rw [hapart j (hr.size ▸ hj.lt) i hi (Cache.serial?_inj hfile' hfile)]

/-- A thread of the ring follows the next one, and only in its sleep. -/
theorem Ring.follows (hr : Ring n place value crew) (hc : crew.Sound) (hi : i < n) {u : Thread}
    (h : crew.crowd.cache.waits.Follows (crew.first + i) u) :
    u = crew.first + succ n i ∧ ∃ task s r, crew.Member i task (.asleep (some s) r) := by
  obtain ⟨r, hr', hu⟩ := WaitGraph.follows_iff.mp h
  obtain ⟨task, stage, hm⟩ := hr.exists_member hi
  rw [(hc.does _).sleeps, stageOf_eq hm] at hr'
  obtain ⟨hfile, s, rfl⟩ := (hr.stages i task stage hm).serial_of_sleepsAt hr'
  exact ⟨hr.owner_eq hapart hc (succ_lt hi) hfile ((hc.crowd.owners r u).mp hu).1, task, s, r, hm⟩

/-- A way around the ring goes over threads that sleep. -/
theorem Ring.asleep_along (hr : Ring n place value crew) (hc : crew.Sound) (hi : i < n) {u : Thread}
    (h : ReflTransGen crew.crowd.cache.waits.Follows (crew.first + i) u) :
    ∃ m : Nat, u = crew.first + (i + m) % n ∧
      ∀ m' < m, ∃ task s r, crew.Member ((i + m') % n) task (.asleep (some s) r) := by
  induction h with
  | refl => exact ⟨0, by rw [Nat.add_zero, Nat.mod_eq_of_lt hi], nofun⟩
  | tail _ hstep ih =>
      obtain ⟨m, rfl, hasleep⟩ := ih
      obtain ⟨rfl, hlast⟩ := hr.follows hapart hc (Nat.mod_lt _ (Nat.zero_lt_of_lt hi)) hstep
      refine ⟨m + 1, ?_, fun m' hm' => ?_⟩
      · unfold succ
        rw [Nat.mod_add_mod, Nat.add_assoc]
      · rcases Nat.lt_succ_iff_lt_or_eq.mp hm' with hlt | rfl
        · exact hasleep m' hlt
        · exact hlast

/-- If a way leads from the next thread back to thread `i`, all others sleep. -/
theorem Ring.asleep_of_back (hr : Ring n place value crew) (hc : crew.Sound) (hi : i < n)
    (h : ReflTransGen crew.crowd.cache.waits.Follows (crew.first + succ n i) (crew.first + i))
    {j : Nat} (hj : j < n) (hne : j ≠ i) : ∃ task s r, crew.Member j task (.asleep (some s) r) := by
  obtain ⟨m, hm, hasleep⟩ := hr.asleep_along hapart hc (succ_lt hi) h
  have hend : (i + 1 + m) % n = i := by
    have := (Nat.add_left_cancel hm).symm
    rwa [succ, Nat.mod_add_mod] at this
  -- the way is at least as long as the ring
  have hlong : n - 1 ≤ m := by
    by_contra hshort
    by_cases hwrap : i + 1 + m < n
    · rw [Nat.mod_eq_of_lt hwrap] at hend
      omega
    · rw [Nat.mod_eq_sub_mod (Nat.not_lt.mp hwrap), Nat.mod_eq_of_lt (by omega)] at hend
      omega
  obtain ⟨m', hlt, hm'⟩ : ∃ m' < m, (succ n i + m') % n = j := by
    unfold succ
    rcases Nat.lt_or_gt_of_ne hne with hlt | hgt
    · refine ⟨j + n - i - 1, by omega, ?_⟩
      rw [Nat.mod_add_mod, show i + 1 + (j + n - i - 1) = j + n by omega, Nat.add_mod_right,
        Nat.mod_eq_of_lt hj]
    · refine ⟨j - i - 1, by omega, ?_⟩
      rw [Nat.mod_add_mod, show i + 1 + (j - i - 1) = j by omega, Nat.mod_eq_of_lt hj]
  exact hm' ▸ hasleep m' hlt

/-- Whoever is refused is awake while all others sleep. -/
theorem Ring.asleep_of_refused (hr : Ring n place value crew) (hc : crew.Sound) {stage' : Stage ν}
    {k' : Crowd ν} (hm : crew.Member i task stage)
    (ha : Advances crew.crowd (crew.first + i) crew.gathered task stage stage' k')
    (hnot : stage.wasRefused = false) (hrefused : stage'.wasRefused = true) {j : Nat} (hj : j < n)
    (hne : j ≠ i) :
    ∃ task s r, crew.Member j task (.asleep (some s) r) := by
  have hi : i < n := hr.size ▸ hm.lt
  rcases (hr.stages i task stage hm).refused_of_advance ha hrefused
    with h | ⟨s, r, owner, eyes, howner, hback⟩
  · rw [hnot] at h
    cases h
  · rcases (hr.stages i task stage hm).eyes eyes with ⟨h, -⟩ | ⟨-, -, -, hother, -⟩
    · cases h
    · rw [hr.owner_eq hapart hc (succ_lt hi) hother howner] at hback
      exact hr.asleep_of_back hapart hc hi hback hj hne

/-- While one thread takes its turn, the others go on as they are. -/
theorem Ring.later_of_ne (hr : Ring n place value crew) {stage' : Stage ν} {k' : Crowd ν}
    (hc : crew.Sound) (hm : crew.Member i task stage)
    (ha : Advances crew.crowd (crew.first + i) crew.gathered task stage stage' k') {j : Nat}
    {task₁ : Task ν} {stage₁ : Stage ν} (hj : crew.Member j task₁ stage₁) (hne : j ≠ i) :
    Circles k'.cache (place j) (place (succ n j)) (value j) stage₁ := by
  refine (hr.stages j _ _ hj).later (fun l s => ha.serial?_eq) (fun s u => ha.still_done hc.crowd)
    fun hready hfree s hs => (ha.serial?_back hs).elim (fun hs' => ?_) id
  -- the entry of a thread that has not started is wanted by nobody else
  refine ha.still_uncomputed hc.crowd (fun hseeks => ?_) (hfree s hs')
  rcases (hr.stages i task stage hm).serial_of_seeks hseeks with hfile | hmet
  · exact hne (hapart j (hr.size ▸ hj.lt) i (hr.size ▸ hm.lt) (Cache.serial?_inj hs' hfile))
  · have hstarted := gathered_iff.mp (hr.met i task stage hm hmet) j _ _ hj
    rw [hready] at hstarted
    cases hstarted

/-- Nobody is refused after somebody else was. -/
theorem Ring.not_refused_of_ne (hr : Ring n place value crew) (hc : crew.Sound) {stage' : Stage ν}
    {k' : Crowd ν} (hm : crew.Member i task stage)
    (ha : Advances crew.crowd (crew.first + i) crew.gathered task stage stage' k')
    (hrefused : stage'.wasRefused = true) {j : Nat} {task₁ : Task ν} {stage₁ : Stage ν}
    (hj : crew.Member j task₁ stage₁) (hne : j ≠ i) :
    stage₁.wasRefused = false := by
  refine Bool.eq_false_iff.mpr fun h₁ => ?_
  cases hnot : stage.wasRefused with
  | true => exact hne (hr.unique _ _ _ _ _ _ hj hm h₁ hnot)
  | false =>
      obtain ⟨task', s, r, hasleep⟩ :=
        hr.asleep_of_refused hapart hc hm ha hnot hrefused (hr.size ▸ hj.lt) hne
      cases Option.some.inj (hj.eq.symm.trans hasleep.eq)
      cases h₁

omit hapart in
/-- While nobody was refused, a turn brings no thread to its end. -/
theorem Ring.not_past_of_advance (hr : Ring n place value crew) (hc : crew.Sound) {stage' : Stage ν}
    {k' : Crowd ν} (hm : crew.Member i task stage)
    (ha : Advances crew.crowd (crew.first + i) crew.gathered task stage stage' k')
    (hcalm : ∀ i task stage, crew.Member i task stage → stage.wasRefused = false)
    (hrefused : stage'.wasRefused = false) : stage'.isPast = false := by
  obtain ⟨-, -, id, hid, -⟩ := hr.tasks i task stage hm
  refine Bool.eq_false_iff.mpr fun hpast => ?_
  rcases (hr.stages i task stage hm).past_of_advance ha (by simp [hid])
    (fun hmet r => hr.not_free hc hm hmet) hpast
    hrefused with h | ⟨hmet, r, u, hfile, hdone⟩
  · rw [hr.silent hcalm i _ stage hm] at h
    cases h
  · -- the next thread would have come to an end before
    obtain ⟨task', stage₁, hm', h⟩ := hr.past_of_done hc hm hmet hfile hdone
    rw [hr.silent hcalm _ _ _ hm'] at h
    cases h

omit hapart in
/-- Once everybody has started, this stays so. -/
theorem Ring.gathered_turn {stage' : Stage ν} {k' : Crowd ν} (hm : crew.Member i task stage)
    (ha : Advances crew.crowd (crew.first + i) crew.gathered task stage stage' k')
    (hg : crew.gathered = true) :
    Crew.gathered { crew with crowd := k', members := crew.members.set i (task, stage') } =
      true := by
  have hall := gathered_iff.mp hg
  exact gathered_iff.mpr (forall_member_set k' hm (ha.started (hall i task stage hm))
    fun j _ _ _ => hall j _ _)

omit hapart in
/-- If nobody is refused after a turn, nobody was before. -/
theorem Ring.not_refused_before (hr : Ring n place value crew) {stage' : Stage ν} {k' : Crowd ν}
    (hm : crew.Member i task stage)
    (ha : Advances crew.crowd (crew.first + i) crew.gathered task stage stage' k')
    (hcalm : ∀ j task₁ stage₁,
      Member { crew with crowd := k', members := crew.members.set i (task, stage') }
        j task₁ stage₁ → stage₁.wasRefused = false) :
    ∀ j task₁ stage₁, crew.Member j task₁ stage₁ → stage₁.wasRefused = false := by
  intro j task₁ stage₁ hj
  by_cases hji : j = i
  · subst hji
    cases Option.some.inj (hm.eq.symm.trans hj.eq)
    refine Bool.eq_false_iff.mpr fun hrefused => ?_
    have hlater := (hr.stages j task stage hm).still_refused ha hrefused
    rw [hcalm j task stage' ((member_set k' hm).mpr (Or.inl ⟨rfl, rfl, rfl⟩))] at hlater
    cases hlater
  · exact hcalm j task₁ stage₁ ((member_set k' hm).mpr (Or.inr ⟨hji, hj⟩))

theorem Ring.turn (hr : Ring n place value crew) (hc : crew.Sound) {stage' : Stage ν} {k' : Crowd ν}
    (hm : crew.Member i task stage)
    (ha : Advances crew.crowd (crew.first + i) crew.gathered task stage stage' k') :
    Ring n place value { crew with crowd := k', members := crew.members.set i (task, stage') } := by
  have hown := hr.stages i task stage hm
  obtain ⟨hplace, hresult, hnext⟩ := hr.tasks i task stage hm
  have hnext' : task.next ≠ none := by
    obtain ⟨id, hid, -⟩ := hnext
    simp [hid]
  refine ⟨List.length_set.trans hr.size,
    forall_member_set k' hm ⟨hplace, hresult, hnext⟩ fun j task₁ stage₁ _ hj =>
      hr.tasks j task₁ stage₁ hj,
    forall_member_set k' hm ?_ fun j task₁ stage₁ hne hj => hr.later_of_ne hapart hc hm ha hj hne,
    forall_member_set k' hm (fun hmet => ?_) fun j task₁ stage₁ _ hj hmet => ?_, fun hcalm => ?_,
    unique_member_set k' hm (fun hrefused j task₁ stage₁ hj h₁ => ?_) hr.unique⟩
  · exact hown.advance ha hc.crowd hplace hresult hnext fun hmet r => hr.not_free hc hm hmet
  · exact Ring.gathered_turn hm ha
      ((hown.met_of_advance ha hnext' hmet).elim (hr.met i task stage hm) id)
  · exact Ring.gathered_turn hm ha (hr.met j task₁ stage₁ hj hmet)
  · have hcalm' := hr.not_refused_before hm ha hcalm
    have hself : stage'.wasRefused = false :=
      hcalm i task stage' ((member_set k' hm).mpr (Or.inl ⟨rfl, rfl, rfl⟩))
    exact forall_member_set k' hm (hr.not_past_of_advance hc hm ha hcalm' hself)
      fun j task₁ stage₁ _ hj => hr.silent hcalm' j task₁ stage₁ hj
  · by_contra hne
    cases h₁.symm.trans (hr.not_refused_of_ne hapart hc hm ha hrefused hj hne)

end Ring

/-! ## The ring of a list of files -/

def placeOf (ids : List Identity) (i : Nat) : Location := (ids[i]?).elim ⟨[]⟩ (·.location)

theorem placeOf_eq {ids : List Identity} {i : Nat} {id : Identity} (h : ids[i]? = some id) :
    placeOf ids i = id.location := by
  simp [placeOf, h]

theorem getElem?_rotateLeft_one {α : Type} (xs : List α) {i : Nat} (hi : i < xs.length) :
    (xs.rotateLeft 1)[i]? = xs[succ xs.length i]? := by
  unfold List.rotateLeft succ
  by_cases hone : xs.length ≤ 1
  · have hzero : i = 0 := by omega
    have hlength : xs.length = 1 := by omega
    simp [hzero, hlength]
  · have hmod : 1 % xs.length = 1 := Nat.mod_eq_of_lt (by omega)
    simp only [hone, if_false, hmod]
    by_cases hlast : i + 1 < xs.length
    · rw [Nat.mod_eq_of_lt hlast, List.getElem?_append_left (by simp; omega), List.getElem?_drop,
        Nat.add_comm]
    · have hend : i + 1 = xs.length := by omega
      rw [hend, Nat.mod_self, List.getElem?_append_right (by simp; omega)]
      simp [show i - (xs.length - 1) = 0 by omega]

/-- The task of the thread at a position of a ring. -/
theorem getElem?_ring (value : Nat → ν) {ids : List Identity} {i : Nat} {id next : Identity}
    (hi : ids[i]? = some id) (hn : ids[succ ids.length i]? = some next) :
    (ring value ids)[i]? = some { id, value := value i, panics := false, next := some next } := by
  have hlt := (List.getElem?_eq_some_iff.mp hi).1
  have hzip : (ids.zip (ids.rotateLeft 1))[i]? = some (id, next) :=
    List.getElem?_zip_eq_some.mpr ⟨hi, (getElem?_rotateLeft_one ids hlt).trans hn⟩
  simp [ring, List.getElem?_mapIdx, hzip]

theorem length_ring (value : Nat → ν) (ids : List Identity) :
    (ring value ids).length = ids.length := by
  have hrotate : (ids.rotateLeft 1).length = ids.length := by
    simp only [List.rotateLeft]
    split
    · rfl
    · rw [List.length_append, Nat.add_comm, ← List.length_append, List.take_append_drop]
  simp [ring, hrotate]

section Assembled

variable {c : Cache ν} (hc : c.Idle) {ids : List Identity} (hapart : (ids.map (·.location)).Nodup)
  (hnew : ∀ id ∈ ids, c.peek id.location = none) (value : Nat → ν) (first : Thread)

include hapart in
theorem placeOf_inj :
    ∀ i < ids.length, ∀ j < ids.length, placeOf ids i = placeOf ids j → i = j := by
  intro i hi j hj h
  rw [placeOf_eq (List.getElem?_eq_getElem hi), placeOf_eq (List.getElem?_eq_getElem hj)] at h
  have hi' : i < (ids.map (·.location)).length := by simpa using hi
  have hj' : j < (ids.map (·.location)).length := by simpa using hj
  have hmap : (ids.map (·.location))[i] = (ids.map (·.location))[j] := by simpa using h
  exact (List.Nodup.getElem_inj_iff hapart).mp hmap

include hc hnew in
theorem Ring.assemble :
    Ring ids.length (placeOf ids) value (assemble c first (ring value ids)) := by
  have hstart : ∀ i task stage, (Crew.assemble c first (ring value ids)).Member i task stage →
      ∃ id next, ids[i]? = some id ∧ ids[succ ids.length i]? = some next ∧
        task = { id, value := value i, panics := false, next := some next } ∧ stage = .ready := by
    intro i task stage hm
    obtain ⟨task', ht, heq⟩ := Option.map_eq_some_iff.mp ((List.getElem?_map ..).symm.trans hm.eq)
    cases heq
    have hi : i < ids.length := length_ring value ids ▸ (List.getElem?_eq_some_iff.mp ht).1
    have hid := List.getElem?_eq_getElem hi
    have hnext := List.getElem?_eq_getElem (succ_lt hi)
    exact ⟨_, _, hid, hnext, Option.some.inj (ht.symm.trans (getElem?_ring value hid hnext)), rfl⟩
  refine ⟨?_, fun i task stage hm => ?_, fun i task stage hm => ?_, fun i task stage hm hmet => ?_,
    fun _ i task stage hm => ?_, fun i j task task' stage stage' hm _ h _ => ?_⟩
  · show (List.map _ _).length = _
    rw [List.length_map, length_ring]
  · obtain ⟨id, next, hid, hnext, rfl, -⟩ := hstart i task stage hm
    exact ⟨(placeOf_eq hid).symm, rfl, next, rfl, (placeOf_eq hnext).symm⟩
  · obtain ⟨id, next, hid, -, -, rfl⟩ := hstart i task stage hm
    refine .ready fun s hs => Cache.stateAt_of_peek_eq_none hs (hc.2 s) ?_
    rw [placeOf_eq hid]
    exact hnew id (List.mem_of_getElem? hid)
  · obtain ⟨-, -, -, -, -, rfl⟩ := hstart i task stage hm
    cases hmet
  · obtain ⟨-, -, -, -, -, rfl⟩ := hstart i task stage hm
    rfl
  · obtain ⟨-, -, -, -, -, rfl⟩ := hstart i task stage hm
    cases h

include hc hapart hnew in
theorem Ring.run (schedule : List Event) :
    Ring ids.length (placeOf ids) value ((Crew.assemble c first (ring value ids)).run schedule) :=
  (Sound.assemble hc first _).run_induction (P := Ring ids.length (placeOf ids) value)
    (Ring.assemble hc hnew value first)
    (fun _ _ _ _ _ _ hs hr hm ha => hr.turn (placeOf_inj hapart) hs hm ha)
    (fun _ _ hr => ⟨hr.size, hr.tasks, hr.stages, hr.met, hr.silent, hr.unique⟩) schedule

end Assembled

end Crew

end FSharpWorkspace
