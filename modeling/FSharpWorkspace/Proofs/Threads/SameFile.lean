import FSharpWorkspace.Proofs.Threads.Files
import FSharpWorkspace.Proofs.Threads.Rounds
/-!
# Many threads want one file

A crew whose threads all want the file at `l`, and nothing else, shares one computation. A thread
may sleep until the owner is done, be told that the owner panicked, find that somebody else has the
entry by then, and sleep again. Each stage of a thread says something about the one entry of the
file (`Crew.Shares`), and no two suppliers return a value (`Crew.Flight`): the first to return still
owns the entry, or has published its value, and nobody claims the entry then.

No request is refused. Whoever owns the entry does not sleep, so the way from the
owner ends at once.
-/

set_option autoImplicit false

namespace FSharpWorkspace

open Relation

/-- The value that the supplier of a thread has returned, whether or not it is published yet. -/
def Stage.returned {ν : Type} : Stage ν → Option ν
  | closing _ _ result _ _ => result
  | ended (.value v) true _ => some v
  | _ => none

namespace Crew

variable {ν : Type} {l : Location}

/-! ## Stages -/

/-- The stage of a thread that wants the file at `l` and nothing else. -/
inductive Shares (c : Cache ν) (l : Location) (task : Task ν) : Stage ν → Prop where
  | ready : Shares c l task .ready
  | looking (s : Serial) (file : c.serial? l = some s) : Shares c l task (.looking none s)
  | asleep (s : Serial) (file : c.serial? l = some s) : Shares c l task (.asleep none s)
  | awake (s : Serial) (file : c.serial? l = some s) : Shares c l task (.awake none s)
  | computing (s : Serial) (file : c.serial? l = some s) : Shares c l task (.computing s)
  | closing (step : Closing) (s : Serial) (file : c.serial? l = some s)
    (kept : step = .tell → ∀ v, task.result = some v → c.stateAt s = .done v) :
    Shares c l task (.closing step s task.result none false)
  | served (s : Serial) (v : ν) (file : c.serial? l = some s) (kept : c.stateAt s = .done v) :
    Shares c l task (.ended (.value v) false false)
  | ended (s : Serial) (file : c.serial? l = some s)
      (kept : ∀ v, task.result = some v → c.stateAt s = .done v) :
    Shares c l task (.ended (task.result.elim .panic .value) true false)

section Shares

variable {c c' : Cache ν} {task : Task ν} {stage : Stage ν}

theorem Shares.later (h : Shares c l task stage)
    (hserial : ∀ s, c.serial? l = some s → c'.serial? l = some s)
    (hdone : ∀ s v, c.stateAt s = .done v → c'.stateAt s = .done v) : Shares c' l task stage := by
  cases h with
  | ready => exact .ready
  | looking s file => exact .looking s (hserial s file)
  | asleep s file => exact .asleep s (hserial s file)
  | awake s file => exact .awake s (hserial s file)
  | computing s file => exact .computing s (hserial s file)
  | closing step s file kept =>
      exact .closing step s (hserial s file) fun hs v hv => hdone s v (kept hs v hv)
  | served s v file kept => exact .served s v (hserial s file) (hdone s v kept)
  | ended s file kept => exact .ended s (hserial s file) fun v hv => hdone s v (kept v hv)

theorem Shares.serial_of_computes (h : Shares c l task stage) {s : Serial}
    (hs : s ∈ stage.computes) :
    c.serial? l = some s ∧ stage.sleepsAt = none := by
  cases h with
  | computing r file =>
      obtain rfl := List.mem_singleton.mp hs
      exact ⟨file, rfl⟩
  | closing step r file =>
      cases step with
      | leave | write =>
          obtain rfl := List.mem_singleton.mp hs
          exact ⟨file, rfl⟩
      | tell => cases hs
  | _ => cases hs

/-- A thread whose supplier has returned a value still has the entry, or the value is published. -/
theorem Shares.of_returned (h : Shares c l task stage) {v : ν} (hv : stage.returned = some v) :
    task.result = some v ∧ ∃ s, c.serial? l = some s ∧
      (s ∈ stage.computes ∨ c.stateAt s = .done v) := by
  cases h with
  | closing step s file kept =>
      refine ⟨hv, s, file, ?_⟩
      cases step with
      | leave | write => exact Or.inl List.mem_cons_self
      | tell => exact Or.inr (kept rfl v hv)
  | ended s file kept =>
      cases hr : task.result with
      | none =>
          rw [hr] at hv
          cases hv
      | some u =>
          rw [hr] at hv
          cases hv
          exact ⟨rfl, s, file, Or.inr (kept v hr)⟩
  | _ => cases hv

/-- A thread makes one request, and that is for the file. -/
theorem Shares.eyes (h : Shares c l task stage) {inside : Option Serial} {s : Serial}
    (eyes : stage = .looking inside s ∨ stage = .awake inside s) :
    inside = none ∧ c.serial? l = some s := by
  rcases eyes with rfl | rfl
  · cases h with
    | looking _ file => exact ⟨rfl, file⟩
  · cases h with
    | awake _ file => exact ⟨rfl, file⟩

end Shares

section Turn

variable {k k' : Crowd ν} {t : Thread} {gathered : Bool} {task : Task ν} {stage stage' : Stage ν}

/-- A turn of a thread that wants the file. Whoever owns the entry is awake. -/
theorem Shares.advance (h : Shares k.cache l task stage)
    (ha : Advances k t gathered task stage stage' k') (hk : k.Sound) (hd : k.Does t stage)
    (htask : task.id.location = l ∧ task.next = none)
    (hawake : ∀ s u, k.cache.ownerAt s = some u → k.cache.waits.waiting.lookup u = none) :
    Shares k'.cache l task stage' := by
  have hserial : ∀ s, k.cache.serial? l = some s → k'.cache.serial? l = some s :=
    fun s => ha.serial?_eq
  cases ha with
  | find => exact .looking _ (htask.1 ▸ Cache.serial?_getOrCreate_self k.cache task.id)
  | look inside s eyes free entry looks =>
      obtain ⟨rfl, hs⟩ := h.eyes eyes
      cases looks with
      | ready v h => exact .served s v hs ((Cache.stateAt_eq entry).trans h)
      | claimed => exact .computing s (hserial s hs)
      | blocked => exact .asleep s (hserial s hs)
      | refused owner marks h back =>
          -- the owner follows nobody, and it is somebody else
          have howner : k.cache.ownerAt s = some owner :=
            Cache.ownerAt_eq_some.mpr ⟨marks, (Cache.stateAt_eq entry).trans h⟩
          exfalso
          rcases ReflTransGen.cases_head back with rfl | ⟨next, hnext, -⟩
          · have hmem := (hd.owns s).mp howner
            rcases eyes with rfl | rfl <;> cases hmem
          · exact WaitGraph.not_follows (hawake s owner howner) hnext
  | rise inside s =>
      cases h with
      | asleep _ file => exact .awake s (hserial s file)
  | comes s =>
      cases h with
      | computing _ file => exact .closing .leave s file nofun
  | asks s id hnext => cases hnext.symm.trans htask.2
  | leave s result outer refused =>
      cases h with
      | closing _ _ file => exact .closing .write s (hserial s file) nofun
  | write s result outer refused hwrite =>
      cases h with
      | closing _ _ file =>
          refine .closing .tell s (hserial s file) fun _ v hv => ?_
          rw [stateAt_write hk hwrite, if_pos rfl, hv]
          rfl
  | tell s result outer refused =>
      cases h with
      | closing _ _ file kept => exact .ended s file (kept rfl)

/-- A supplier returns in one turn. -/
theorem Shares.returned_of_advance (h : Shares k.cache l task stage)
    (ha : Advances k t gathered task stage stage' k') (hr : stage'.returned.isSome = true) :
    stage.returned.isSome = true ∨ ∃ s, stage = .computing s := by
  cases ha with
  | look inside s eyes free entry looks =>
      obtain ⟨rfl, -⟩ := h.eyes eyes
      cases looks <;> cases hr
  | comes s => exact Or.inr ⟨s, rfl⟩
  | leave | write => exact Or.inl hr
  | tell s result outer refused =>
      cases h with
      | closing =>
          left
          cases hres : task.result with
          | none =>
              rw [hres] at hr
              cases hr
          | some v => rfl
  | _ => cases hr

end Turn

/-! ## The crew -/

/-- What holds of a crew whose threads all want the file at `l`. -/
structure Flight (l : Location) (crew : Crew ν) : Prop where
  tasks : ∀ i task stage, crew.Member i task stage → task.id.location = l ∧ task.next = none
  shares : ∀ i task stage, crew.Member i task stage → Shares crew.crowd.cache l task stage
  once : ∀ i j task task' stage stage', crew.Member i task stage → crew.Member j task' stage' →
    stage.returned.isSome = true → stage'.returned.isSome = true → i = j

variable {crew : Crew ν}

/-- There is one entry, and whoever owns it is awake. -/
theorem Flight.owner (hf : Flight l crew) (hc : crew.Sound) {s : Serial} {u : Thread}
    (hu : crew.crowd.cache.ownerAt s = some u) :
    crew.crowd.cache.serial? l = some s ∧ crew.crowd.cache.waits.waiting.lookup u = none := by
  obtain ⟨i, task, stage, rfl, hm, hs⟩ := hc.owner_member hu
  obtain ⟨hserial, hawake⟩ := (hf.shares i task stage hm).serial_of_computes hs
  exact ⟨hserial, (hc.does _).sleeps.trans (stageOf_eq hm ▸ hawake)⟩

/-- While a supplier runs, no supplier has returned a value. -/
theorem Flight.not_returned (hf : Flight l crew) (hc : crew.Sound) {i j : Nat} {task task' : Task ν}
    {s : Serial} {stage : Stage ν} (hi : crew.Member i task (.computing s))
    (hj : crew.Member j task' stage) :
    stage.returned.isSome = false := by
  have howner : crew.crowd.cache.ownerAt s = some (crew.first + i) :=
    ((hc.does _).owns s).mpr (stageOf_eq hi ▸ List.mem_singleton_self s)
  by_contra hr
  obtain ⟨v, hv⟩ := Option.isSome_iff_exists.mp (Bool.not_eq_false _ ▸ hr)
  obtain ⟨-, r, hr, hmem | hdone⟩ := (hf.shares j task' stage hj).of_returned hv
  · obtain rfl := Option.some.inj ((hf.owner hc howner).1.symm.trans hr)
    have howner' := ((hc.does (crew.first + j)).owns s).mpr (stageOf_eq hj ▸ hmem)
    obtain rfl := Nat.add_left_cancel (Option.some.inj (howner.symm.trans howner'))
    cases Option.some.inj (hi.eq.symm.trans hj.eq)
    cases hv
  · obtain rfl := Option.some.inj ((hf.owner hc howner).1.symm.trans hr)
    cases howner.symm.trans (Cache.ownerAt_of_done hdone)

theorem Flight.turn {i : Nat} {task : Task ν} {stage stage' : Stage ν} {k' : Crowd ν}
    (hf : Flight l crew) (hc : crew.Sound) (hm : crew.Member i task stage)
    (ha : Advances crew.crowd (crew.first + i) crew.gathered task stage stage' k') :
    Flight l { crew with crowd := k', members := crew.members.set i (task, stage') } := by
  have hd := hc.does (crew.first + i)
  rw [stageOf_eq hm] at hd
  have hown := hf.shares i task stage hm
  refine ⟨forall_member_set k' hm (hf.tasks i task stage hm) fun j task₁ stage₁ _ hj =>
    hf.tasks j task₁ stage₁ hj,
    forall_member_set k' hm ?_ fun j task₁ stage₁ _ hj => ?_,
    unique_member_set k' hm (fun hreturned j task₁ stage₁ hj h₁ => ?_) hf.once⟩
  · exact hown.advance ha hc.crowd hd (hf.tasks i task stage hm) fun s u hu => (hf.owner hc hu).2
  · exact (hf.shares j task₁ stage₁ hj).later (fun s => ha.serial?_eq)
      fun s v => ha.still_done hc.crowd
  · -- the one who moves has returned a value before, or nobody else has
    rcases hown.returned_of_advance ha hreturned with hold | ⟨s, rfl⟩
    · exact hf.once _ _ _ _ _ _ hj hm h₁ hold
    · rw [hf.not_returned hc hm hj] at h₁
      cases h₁

theorem Flight.run {c : Cache ν} (hc : c.Idle) {tasks : List (Task ν)}
    (htasks : ∀ task ∈ tasks, task.id.location = l ∧ task.next = none) (first : Thread)
    (schedule : List Event) :
    Flight l ((assemble c first tasks).run schedule) := by
  have hstart : ∀ i task stage, (assemble c first tasks).Member i task stage →
      task ∈ tasks ∧ stage = .ready := by
    intro i task stage hm
    obtain ⟨task', ht, heq⟩ := Option.map_eq_some_iff.mp ((List.getElem?_map ..).symm.trans hm.eq)
    cases heq
    exact ⟨List.mem_of_getElem? ht, rfl⟩
  refine (Sound.assemble hc first tasks).run_induction (P := Flight l) ⟨fun i task stage hm => ?_,
    fun i task stage hm => ?_, fun i j task task' stage stage' hm _ h _ => ?_⟩ ?_ ?_ schedule
  · exact htasks task (hstart i task stage hm).1
  · rw [(hstart i task stage hm).2]
    exact .ready
  · rw [(hstart i task stage hm).2] at h
    cases h
  · exact fun crew i task stage stage' k' hc hf hm ha => hf.turn hc hm ha
  · exact fun crew woken hf => ⟨hf.tasks, hf.shares, hf.once⟩

section Ends

variable (hf : Flight l crew) (hc : crew.Sound)

include hf hc

/-- At most one thread computes the file. -/
theorem Flight.alone {i j : Nat} {task task' : Task ν} {stage stage' : Stage ν}
    (hi : crew.Member i task stage) (hj : crew.Member j task' stage') (h : stage.computes ≠ [])
    (h' : stage'.computes ≠ []) : i = j := by
  obtain ⟨s, hmem⟩ := List.exists_mem_of_ne_nil _ h
  obtain ⟨r, hmem'⟩ := List.exists_mem_of_ne_nil _ h'
  have howner := ((hc.does _).owns s).mpr (stageOf_eq hi ▸ hmem)
  have howner' := ((hc.does _).owns r).mpr (stageOf_eq hj ▸ hmem')
  obtain rfl := Option.some.inj ((hf.owner hc howner).1.symm.trans (hf.owner hc howner').1)
  exact Nat.add_left_cancel (Option.some.inj (howner.symm.trans howner'))

/-- A value that is published is that of whoever has returned one. -/
theorem Flight.published {s : Serial} {v u : ν} (hfile : crew.crowd.cache.serial? l = some s)
    (hv : crew.crowd.cache.stateAt s = .done v) {j : Nat} {task : Task ν} {stage : Stage ν}
    (hj : crew.Member j task stage) (hu : stage.returned = some u) : v = u := by
  obtain ⟨-, r, hr, hmem | hdone⟩ := (hf.shares j task stage hj).of_returned hu
  · obtain rfl := Option.some.inj (hfile.symm.trans hr)
    cases (Cache.ownerAt_of_done hv).symm.trans (((hc.does _).owns s).mpr (stageOf_eq hj ▸ hmem))
  · obtain rfl := Option.some.inj (hfile.symm.trans hr)
    exact EntryState.done.inj (hv.symm.trans hdone)

/-- Who is done has its own panic, or the value that the cache holds. -/
theorem Flight.outcome {i : Nat} {task : Task ν} {outcome : Outcome ν} {computed refused : Bool}
    (hi : crew.Member i task (.ended outcome computed refused)) :
    refused = false ∧
      if computed = true ∧ task.panics = true then outcome = .panic
      else ∃ v, outcome = .value v ∧ crew.crowd.cache.peek l = some v ∧
        ∀ j task' stage u, crew.Member j task' stage → stage.returned = some u → v = u := by
  cases hf.shares i task _ hi with
  | served s v file kept =>
      refine ⟨rfl, ?_⟩
      rw [if_neg (by simp)]
      exact ⟨v, rfl, Cache.peek_of_stateAt file kept,
        fun j task' stage u hj hu => hf.published hc file kept hj hu⟩
  | ended s file kept =>
      refine ⟨rfl, ?_⟩
      by_cases hp : task.panics = true
      · simp [hp, Task.result]
      · have hr : task.result = some task.value := if_neg hp
        rw [if_neg (fun h => hp h.2), hr]
        exact ⟨task.value, rfl, Cache.peek_of_stateAt file (kept _ hr),
          fun j task' stage u hj hu => hf.published hc file (kept _ hr) hj hu⟩

end Ends

/-- **Single flight.** Let the threads of a crew all ask for one file, with suppliers that do not
ask for anything, at a cache where nobody waits and nothing is in progress. After every schedule,
at most one thread computes the file, and at most one supplier has returned a value, however many
have panicked. Every thread that is done ran a supplier that panicked, and has the panic; or it
has the value that the cache holds for the file, which is the one that the supplier returned if
one did. No request was refused. And if everybody then has a turn in each of enough rounds,
everybody is done. -/
theorem single_flight {c : Cache ν} (hc : c.Idle) {tasks : List (Task ν)}
    (htasks : ∀ task ∈ tasks, task.id.location = l ∧ task.next = none) (first : Thread)
    (schedule : List Event) :
    let crew := (assemble c first tasks).run schedule
    (∀ i j task task' stage stage', crew.Member i task stage → crew.Member j task' stage' →
      stage.computes ≠ [] → stage'.computes ≠ [] → i = j) ∧
    (∀ i j task task' stage stage', crew.Member i task stage → crew.Member j task' stage' →
      stage.returned.isSome = true → stage'.returned.isSome = true → i = j) ∧
    (∀ i task outcome computed refused, crew.Member i task (.ended outcome computed refused) →
      tasks[i]? = some task ∧ refused = false ∧
      if computed = true ∧ task.panics = true then outcome = .panic
      else ∃ v, outcome = .value v ∧ crew.crowd.cache.peek l = some v ∧
        ∀ j task' stage u, crew.Member j task' stage → stage.returned = some u → v = u) ∧
    ∀ rounds : List (List Nat), (∀ round ∈ rounds, ∀ i < tasks.length, i ∈ round) →
      patience tasks.length ≤ rounds.length → ∀ i task, tasks[i]? = some task →
        ∃ outcome computed refused,
        ((assemble c first tasks).run (schedule ++ rounds.flatten.map .turn)).Member i task
          (.ended outcome computed refused) := by
  intro crew
  have hs : crew.Sound := (Sound.assemble hc first tasks).run schedule
  have hf : Flight l crew := .run hc htasks first schedule
  have hlength : crew.members.length = tasks.length := length_assemble hc first tasks schedule
  refine ⟨fun i j task task' stage stage' hi hj => hf.alone hs hi hj, hf.once,
    fun i task outcome computed refused hi => ⟨hi.task_eq hc, hf.outcome hs hi⟩,
      fun rounds hall henough i task hi => ?_⟩
  obtain ⟨stage, hm⟩ :=
    exists_member_assemble hc first tasks (schedule ++ rounds.flatten.map .turn) hi
  have hlater := Flight.run hc htasks first (schedule ++ rounds.flatten.map .turn)
  rw [← hlength] at hall henough
  rw [run_append] at hm hlater ⊢
  have hnext : ∀ member ∈ (crew.run (rounds.flatten.map .turn)).members, member.1.next = none := by
    intro member hmem
    obtain ⟨j, hj⟩ := List.getElem?_of_mem hmem
    exact (hlater.tasks j member.1 member.2 hj).2
  obtain ⟨outcome, computed, refused, rfl⟩ :=
    Stage.isEnded_iff.mp (hs.ended_of_rounds hall henough (Or.inr hnext) i task stage hm)
  exact ⟨outcome, computed, refused, hm⟩

/-- Three threads that want one file. The supplier of the first one panics. -/
def faltering : List (Task Nat) :=
  [⟨⟨⟨["a.fsproj"]⟩, .project⟩, 0, true, none⟩, ⟨⟨⟨["a.fsproj"]⟩, .project⟩, 1, false, none⟩,
    ⟨⟨⟨["a.fsproj"]⟩, .project⟩, 2, false, none⟩]

/-- The last thread sleeps, and is stirred. Then everybody has turns, and comes to an end. -/
theorem single_flight_faltering : (Cache.empty : Cache Nat).Idle ∧
    (∀ task ∈ faltering, task.id.location = ⟨["a.fsproj"]⟩ ∧ task.next = none) ∧
    ∀ i task, faltering[i]? = some task → ∃ outcome computed refused,
      ((assemble .empty 1 faltering).run
      ([.turn 0, .turn 0, .turn 2, .turn 2, .stir 2] ++
        (List.replicate (patience 3) [2, 1, 0]).flatten.map .turn)).Member
        i task (.ended outcome computed refused) := by
  have hidle : (Cache.empty : Cache Nat).Idle := ⟨rfl, fun _ => rfl⟩
  have htasks : ∀ task ∈ faltering, task.id.location = ⟨["a.fsproj"]⟩ ∧ task.next = none := by
    decide
  refine ⟨hidle, htasks, (single_flight hidle htasks 1 _).2.2.2 _ ?_ (by decide)⟩
  intro round hround i hi
  rw [List.eq_of_mem_replicate hround]
  have hlt : i < 3 := hi
  simp only [List.mem_cons, List.not_mem_nil, or_false]
  omega

end Crew

end FSharpWorkspace
