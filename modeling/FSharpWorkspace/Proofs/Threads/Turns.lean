import FSharpWorkspace.Proofs.Threads.Moves
/-!
# One turn of a thread

A crew keeps the stage of each thread beside the cache. `Crowd.Does` says that the two agree on a
thread: it owns the entries that its stage says it computes, it has left the entry that it is about
to write into, and it waits for the entry that it sleeps at.

`Crew.Advances` lists what a turn can be. Everything about turns is proved from it: a turn
keeps the agreement of the thread with its stage (`Advances.does`) and is no concern of the
others (`Advances.apart`), and the lemmas after these follow sleepers and entries in progress
from one turn to the next.
-/

set_option autoImplicit false

namespace FSharpWorkspace

open Relation

/-- A file that was looked for has an entry. -/
theorem Cache.getOrCreate_lt {ν : Type} (c : Cache ν) (id : Identity) :
    (c.getOrCreate id).1 < (c.getOrCreate id).2.entries.length := by
  unfold getOrCreate
  split
  · rename_i s hs
    exact (List.findIdx?_eq_some_iff_getElem.mp hs).1
  · simp

/-! ## Stages -/

namespace Stage

variable {ν : Type}

/-- The entries that a thread computes, the innermost first. -/
def computes : Stage ν → List Serial
  | ready => []
  | looking inside _ => inside.toList
  | asleep inside _ => inside.toList
  | awake inside _ => inside.toList
  | computing s => [s]
  | closing .leave s _ outer _ => s :: outer.toList
  | closing .write s _ outer _ => s :: outer.toList
  | closing .tell _ _ outer _ => outer.toList
  | ended _ _ _ => []

/-- The entry that a thread has left, and not yet written into. -/
def leaves : Stage ν → Option Serial
  | closing .write s _ _ _ => some s
  | _ => none

/-- The entry at which a thread is about to tell the sleepers. -/
def tells : Stage ν → Option Serial
  | closing .tell s _ _ _ => some s
  | _ => none

/-- The entry that a thread sleeps at. -/
def sleepsAt : Stage ν → Option Serial
  | asleep _ s => some s
  | _ => none

/-- The entry that a thread wants the value of. -/
def seeks : Stage ν → Option Serial
  | looking _ s => some s
  | asleep _ s => some s
  | awake _ s => some s
  | _ => none

theorem isEnded_iff {stage : Stage ν} :
    stage.isEnded = true ↔ ∃ outcome computed refused, stage = ended outcome computed refused := by
  cases stage <;> simp [isEnded]

theorem not_ended_of_computes {stage : Stage ν} {s : Serial} (h : s ∈ stage.computes) :
    stage.isEnded = false := by
  cases stage with
  | ended => cases h
  | _ => rfl

theorem ne_ready_of_computes {stage : Stage ν} {s : Serial}
    (h : s ∈ stage.computes) : stage ≠ ready := by
  rintro rfl
  cases h

theorem not_ended_of_tells {stage : Stage ν} {s : Serial} (h : stage.tells = some s) :
    stage.isEnded = false ∧ stage.sleepsAt = none := by
  cases stage with
  | closing => exact ⟨rfl, rfl⟩
  | _ => cases h

theorem ne_ready_of_tells {stage : Stage ν} {s : Serial}
    (h : stage.tells = some s) : stage ≠ ready := by
  rintro rfl
  cases h

end Stage

namespace Crew

variable {ν : Type} (task : Task ν) (inside : Option Serial) (answer : Request ν)

theorem computes_answered :
    (answered task inside answer).computes =
      match answer with
      | .claimed s _ => s :: inside.toList
      | _ => inside.toList := by
  cases answer <;> cases inside <;> rfl

theorem leaves_answered : (answered task inside answer).leaves = none := by
  cases answer <;> cases inside <;> rfl

theorem sleepsAt_answered :
    (answered task inside answer).sleepsAt =
      match answer with
      | .blocked s => some s
      | _ => none := by
  cases answer <;> cases inside <;> rfl

theorem seeks_answered :
    (answered task inside answer).seeks =
      match answer with
      | .blocked s => some s
      | _ => none := by
  cases answer <;> cases inside <;> rfl

variable (result : Option ν) (refused : Bool) (outer : Option Serial)

theorem computes_closed : (closed task result refused outer).computes = outer.toList := by
  cases outer <;> rfl

theorem leaves_closed : (closed task result refused outer).leaves = none := by
  cases outer <;> rfl

theorem sleepsAt_closed : (closed task result refused outer).sleepsAt = none := by
  cases outer <;> rfl

theorem seeks_closed : (closed task result refused outer).seeks = none := by
  cases outer <;> rfl

end Crew

/-! ## One thread and the others -/

namespace Crowd

variable {ν : Type} {k k' : Crowd ν} {t u : Thread} {s : Serial} {stage : Stage ν}

/-- The thread `t` is where the stage says. -/
structure Does (k : Crowd ν) (t : Thread) (stage : Stage ν) : Prop where
  owns : ∀ s, k.cache.ownerAt s = some t ↔ s ∈ stage.computes
  once : stage.computes.Nodup
  leaves : ∀ s, (t, s) ∈ k.leaving ↔ stage.leaves = some s
  sleeps : k.cache.waits.waiting.lookup t = stage.sleepsAt

/-- Nothing has changed that concerns threads other than `t`. -/
structure Apart (t : Thread) (k k' : Crowd ν) : Prop where
  owners : ∀ u s, u ≠ t → (k'.cache.ownerAt s = some u ↔ k.cache.ownerAt s = some u)
  leaving : ∀ u s, u ≠ t → ((u, s) ∈ k'.leaving ↔ (u, s) ∈ k.leaving)
  waiting : ∀ u, u ≠ t → k'.cache.waits.waiting.lookup u = k.cache.waits.waiting.lookup u

theorem Does.apart (h : k.Does u stage) (hk : Apart t k k') (hu : u ≠ t) : k'.Does u stage where
  owns s := (hk.owners u s hu).trans (h.owns s)
  once := h.once
  leaves s := (hk.leaving u s hu).trans (h.leaves s)
  sleeps := (hk.waiting u hu).trans h.sleeps

theorem Does.isFree (h : k.Does t stage) (hl : stage.leaves = none) (hs : stage.sleepsAt = none) :
    k.isFree t = true :=
  isFree_iff.mpr ⟨h.sleeps.trans hs, fun s hmem => by simp [(h.leaves s).mp hmem] at hl⟩

theorem Does.find (h : k.Does t stage) (id : Identity) : (k.find id).2.Does t stage where
  owns s := by rw [ownerAt_find]; exact h.owns s
  once := h.once
  leaves := h.leaves
  sleeps := (congrArg (·.waiting.lookup t) (Cache.waits_getOrCreate k.cache id)).trans h.sleeps

theorem Apart.refl (t : Thread) (k : Crowd ν) : Apart t k k :=
  ⟨fun _ _ _ => .rfl, fun _ _ _ => .rfl, fun _ _ => rfl⟩

theorem Apart.find (k : Crowd ν) (t : Thread) (id : Identity) : Apart t k (k.find id).2 where
  owners u s _ := by rw [ownerAt_find]
  leaving _ _ _ := .rfl
  waiting u _ := congrArg (·.waiting.lookup u) (Cache.waits_getOrCreate k.cache id)

theorem Apart.look {e : Entry ν} {answer : Request ν} (he : k.cache.entries[s]? = some e)
    (h : k.Looks t s e answer k') : Apart t k k' := by
  have hst : k.cache.stateAt s = e.state := Cache.stateAt_eq he
  have hlen : s < k.cache.entries.length := (List.getElem?_eq_some_iff.mp he).1
  cases h with
  | ready | refused => exact .refl t k
  | claimed h =>
      refine ⟨fun u r hu => ?_, fun _ _ _ => .rfl, fun _ _ => rfl⟩
      rw [ownerAt_claimed hlen]
      by_cases hr : r = s
      · simp [hr, Cache.ownerAt, hst, h, EntryState.owner?, Ne.symm hu]
      · rw [if_neg hr]
  | blocked =>
      refine ⟨fun _ _ _ => .rfl, fun _ _ _ => .rfl, fun u hu => ?_⟩
      rw [WaitGraph.lookup_waiting_wait, if_neg hu]

theorem Apart.rise (h : k.rise t = some k') : Apart t k k' := by
  obtain ⟨-, rfl⟩ := rise_eq_some.mp h
  refine ⟨fun _ _ _ => .rfl, fun _ _ _ => .rfl, fun u hu => ?_⟩
  rw [WaitGraph.lookup_waiting_wake, if_neg hu]

theorem Does.look {inside : Option Serial} {e : Entry ν} {answer : Request ν} {task : Task ν}
    (h : k.Does t stage) (eyes : stage = .looking inside s ∨ stage = .awake inside s)
    (he : k.cache.entries[s]? = some e) (hl : k.Looks t s e answer k') :
    k'.Does t (Crew.answered task inside answer) := by
  have hst : k.cache.stateAt s = e.state := Cache.stateAt_eq he
  have hlen : s < k.cache.entries.length := (List.getElem?_eq_some_iff.mp he).1
  have hc : stage.computes = inside.toList := by rcases eyes with rfl | rfl <;> rfl
  have hn : stage.leaves = none := by rcases eyes with rfl | rfl <;> rfl
  have hs : stage.sleepsAt = none := by rcases eyes with rfl | rfl <;> rfl
  obtain ⟨howns, honce, hleaves, hsleeps⟩ := h
  simp only [hc, hn, hs] at howns honce hleaves hsleeps
  cases hl with
  | ready | refused =>
      refine ⟨?_, ?_, ?_, ?_⟩ <;>
        simpa only [Crew.computes_answered, Crew.leaves_answered, Crew.sleepsAt_answered]
  | blocked owner marks =>
      refine ⟨fun r => ?_, ?_, fun r => ?_, ?_⟩
      · rw [Crew.computes_answered]
        exact howns r
      · rw [Crew.computes_answered]
        exact honce
      · rw [Crew.leaves_answered]
        exact hleaves r
      · rw [Crew.sleepsAt_answered, WaitGraph.lookup_waiting_wait, if_pos rfl]
  | claimed h =>
      -- the entry is a new one for the thread
      have hnew : s ∉ inside.toList := fun hmem => by
        have := (howns s).mpr hmem
        simp [Cache.ownerAt, hst, h, EntryState.owner?] at this
      refine ⟨fun r => ?_, ?_, fun r => ?_, ?_⟩
      · rw [Crew.computes_answered, ownerAt_claimed hlen, List.mem_cons, ← howns]
        by_cases hr : r = s
        · simp [hr]
        · simp [hr]
      · rw [Crew.computes_answered]
        exact List.nodup_cons.mpr ⟨hnew, honce⟩
      · rw [Crew.leaves_answered]
        exact hleaves r
      · rw [Crew.sleepsAt_answered]
        exact hsleeps

theorem Apart.leave (h : k.leave t s = some k') : Apart t k k' := by
  obtain ⟨-, rfl⟩ := leave_eq_some.mp h
  refine ⟨fun _ _ _ => .rfl, fun u r hu => ?_, fun _ _ => rfl⟩
  simp [hu]

theorem Apart.write {result : Option ν} {stale : ν → Location → Bool} (hk : k.Sound)
    (h : k.write t s result stale = some k') : Apart t k k' := by
  obtain ⟨hleaving, rfl⟩ := write_eq_some.mp h
  have howner := (hk.leaving t s hleaving).1
  refine ⟨fun u r hu => ?_, fun u r hu => ?_, fun _ _ => rfl⟩
  · rw [ownerAt_written (Cache.lt_of_ownerAt howner)]
    by_cases hr : r = s
    · simp [hr, howner, Ne.symm hu]
    · rw [if_neg hr]
  · simp [hu]

end Crowd

/-! ## One turn -/

namespace Crew

variable {ν : Type}

/-- What a turn of the thread `t` can be, in the order of the stages. -/
inductive Advances (k : Crowd ν) (t : Thread) (gathered : Bool) (task : Task ν) :
    Stage ν → Stage ν → Crowd ν → Prop where
  | find : Advances k t gathered task .ready (.looking none (k.find task.id).1) (k.find task.id).2
  | look {stage : Stage ν} (inside : Option Serial) (s : Serial) {e : Entry ν}
      {answer : Request ν} {k' : Crowd ν}
    (eyes : stage = .looking inside s ∨ stage = .awake inside s) (free : k.isFree t = true)
    (entry : k.cache.entries[s]? = some e) (looks : k.Looks t s e answer k') :
    Advances k t gathered task stage (answered task inside answer) k'
  | rise (inside : Option Serial) (s : Serial) {k' : Crowd ν} (h : k.rise t = some k') :
    Advances k t gathered task (.asleep inside s) (.awake inside s) k'
  | comes (s : Serial) (h : task.next = none) :
    Advances k t gathered task (.computing s) (.closing .leave s task.result none false) k
  | asks (s : Serial) (id : Identity) (h : task.next = some id) (all : gathered = true) :
    Advances k t gathered task (.computing s) (.looking (some s) (k.find id).1) (k.find id).2
  | leave (s : Serial) (result : Option ν) (outer : Option Serial) (refused : Bool) {k' : Crowd ν}
    (h : k.leave t s = some k') :
    Advances k t gathered task (.closing .leave s result outer refused)
      (.closing .write s result outer refused) k'
  | write (s : Serial) (result : Option ν) (outer : Option Serial) (refused : Bool) {k' : Crowd ν}
    (h : k.write t s result neverStale = some k') :
    Advances k t gathered task (.closing .write s result outer refused)
      (.closing .tell s result outer refused) k'
  | tell (s : Serial) (result : Option ν) (outer : Option Serial) (refused : Bool) :
    Advances k t gathered task (.closing .tell s result outer refused)
      (closed task result refused outer) (k.tell s)

theorem Advances.of_look {k k' : Crowd ν} {t : Thread} {gathered : Bool} {task : Task ν}
    {stage stage' : Stage ν} {inside : Option Serial} {s : Serial}
    (eyes : stage = .looking inside s ∨ stage = .awake inside s)
    (h : (k.look t s).map
        (fun (answer, k) => (answered task inside answer, k)) = some (stage', k')) :
    Advances k t gathered task stage stage' k' := by
  obtain ⟨⟨answer, k₁⟩, hlook, heq⟩ := Option.map_eq_some_iff.mp h
  cases heq
  obtain ⟨hfree, e, he, hl⟩ := Crowd.look_cases hlook
  exact .look inside s eyes hfree he hl

theorem advances {k k' : Crowd ν} {t : Thread} {gathered : Bool} {task : Task ν}
    {stage stage' : Stage ν} (h : advance k t gathered task stage = some (stage', k')) :
    Advances k t gathered task stage stage' k' := by
  cases stage with
  | ready =>
      cases h
      exact .find
  | looking inside s => exact .of_look (Or.inl rfl) h
  | asleep inside s =>
      obtain ⟨k₁, hrise, heq⟩ := Option.map_eq_some_iff.mp h
      cases heq
      exact .rise inside s hrise
  | awake inside s => exact .of_look (Or.inr rfl) h
  | computing s =>
      simp only [advance] at h
      cases hnext : task.next with
      | none =>
          rw [hnext] at h
          cases h
          exact .comes s hnext
      | some id =>
          simp only [hnext] at h
          by_cases hall : gathered = true
          · rw [if_pos hall] at h
            cases h
            exact .asks s id hnext hall
          · rw [if_neg hall] at h
            cases h
  | closing step s result outer refused =>
      cases step with
      | leave =>
          obtain ⟨k₁, hleave, heq⟩ := Option.map_eq_some_iff.mp h
          cases heq
          exact .leave s result outer refused hleave
      | write =>
          obtain ⟨k₁, hwrite, heq⟩ := Option.map_eq_some_iff.mp h
          cases heq
          exact .write s result outer refused hwrite
      | tell =>
          cases h
          exact .tell s result outer refused
  | ended outcome computed refused => cases h

section Advances

variable {k k' : Crowd ν} {t : Thread} {gathered : Bool} {task : Task ν} {stage stage' : Stage ν}

theorem Advances.sound (h : Advances k t gathered task stage stage' k')
    (hk : k.Sound) : k'.Sound := by
  cases h with
  | find => exact hk.find task.id
  | look inside s eyes free entry looks => exact hk.look free entry looks
  | rise inside s h => exact hk.rise h
  | comes => exact hk
  | asks s id => exact hk.find id
  | leave s result outer refused h => exact hk.leave h
  | write s result outer refused h => exact hk.write h
  | tell => exact hk.of_same rfl (fun _ => rfl) rfl

/-- A turn is no concern of the other threads. -/
theorem Advances.apart (h : Advances k t gathered task stage stage' k')
    (hk : k.Sound) : Crowd.Apart t k k' := by
  cases h with
  | find => exact .find k t task.id
  | look inside s eyes free entry looks => exact .look entry looks
  | rise inside s h => exact .rise h
  | comes => exact .refl t k
  | asks s id => exact .find k t id
  | leave s result outer refused h => exact .leave h
  | write s result outer refused h => exact .write hk h
  | tell => exact ⟨fun _ _ _ => .rfl, fun _ _ _ => .rfl, fun _ _ => rfl⟩

/-- The agreement of the thread itself with its new stage. -/
theorem Advances.does (h : Advances k t gathered task stage stage' k') (hk : k.Sound)
    (hd : k.Does t stage) :
    k'.Does t stage' := by
  cases h with
  | find =>
      have hd' := hd.find task.id
      exact ⟨hd'.owns, hd'.once, hd'.leaves, hd'.sleeps⟩
  | look inside s eyes free entry looks => exact hd.look eyes entry looks
  | rise inside s h =>
      obtain ⟨-, rfl⟩ := Crowd.rise_eq_some.mp h
      refine ⟨hd.owns, hd.once, hd.leaves, ?_⟩
      rw [WaitGraph.lookup_waiting_wake, if_pos rfl]
      rfl
  | comes s => exact ⟨hd.owns, hd.once, hd.leaves, hd.sleeps⟩
  | asks s id =>
      have hd' := hd.find id
      exact ⟨hd'.owns, hd'.once, hd'.leaves, hd'.sleeps⟩
  | leave s result outer refused h =>
      obtain ⟨-, rfl⟩ := Crowd.leave_eq_some.mp h
      refine ⟨hd.owns, hd.once, fun r => ?_, hd.sleeps⟩
      have hnone : (t, r) ∉ k.leaving := fun hmem => by cases (hd.leaves r).mp hmem
      simp [Stage.leaves, hnone, eq_comm]
  | write s result outer refused h =>
      obtain ⟨hleaving, rfl⟩ := Crowd.write_eq_some.mp h
      have hlen := Cache.lt_of_ownerAt (hk.leaving t s hleaving).1
      -- the slot written to has no owner any more, and every other keeps its own
      have honce := List.nodup_cons.mp hd.once
      refine ⟨fun r => ?_, honce.2, fun r => ?_, hd.sleeps⟩
      · rw [Crowd.ownerAt_written hlen]
        by_cases hr : r = s
        · subst hr
          simp only [if_true, reduceCtorEq, false_iff]
          exact honce.1
        · rw [if_neg hr, hd.owns]
          simp [Stage.computes, hr]
      · have hother : (t, r) ∈ k.leaving → r = s :=
          fun hmem => (Option.some.inj ((hd.leaves r).mp hmem)).symm
        simpa [Stage.leaves] using hother
  | tell s result outer refused =>
      refine ⟨fun r => ?_, ?_, fun r => ?_, ?_⟩
      · rw [computes_closed]
        exact hd.owns r
      · rw [computes_closed]
        exact hd.once
      · rw [leaves_closed]
        exact hd.leaves r
      · rw [sleepsAt_closed]
        exact hd.sleeps

/-! ### What a turn does to those who sleep and those who are woken -/

theorem Advances.woken (h : Advances k t gathered task stage stage' k') (hs : k.Sound)
    (hk : ∀ u ∈ k.woken, k.isAsleep u = true) : ∀ u ∈ k'.woken, k'.isAsleep u = true := by
  have hfind : ∀ id, ∀ u ∈ k.woken, (k.find id).2.isAsleep u = true := fun id u hu =>
    (congrArg (fun w => (w.waiting.lookup u).isSome) (Cache.waits_getOrCreate k.cache id)).trans
      (hk u hu)
  cases h with
  | find => exact hfind task.id
  | look inside s eyes free entry looks =>
      cases looks with
      | ready | refused | claimed => exact hk
      | blocked =>
          intro u hu
          unfold Crowd.isAsleep
          rw [WaitGraph.lookup_waiting_wait]
          split
          · rfl
          · exact hk u hu
  | rise inside s h =>
      obtain ⟨-, rfl⟩ := Crowd.rise_eq_some.mp h
      intro u hu
      obtain ⟨hmem, hne⟩ := List.mem_filter.mp hu
      have hne' : u ≠ t := by simpa using hne
      unfold Crowd.isAsleep
      rw [WaitGraph.lookup_waiting_wake, if_neg hne']
      exact hk u hmem
  | comes => exact hk
  | asks s id => exact hfind id
  | leave s result outer refused h =>
      obtain ⟨-, rfl⟩ := Crowd.leave_eq_some.mp h
      exact hk
  | write s result outer refused h =>
      obtain ⟨-, rfl⟩ := Crowd.write_eq_some.mp h
      exact hk
  | tell s =>
      intro u hu
      rcases List.mem_append.mp hu with hu | hu
      · exact hk u hu
      · show (k.cache.waits.waiting.lookup u).isSome = true
        rw [hs.mem_waiters.mp hu]
        rfl

/-- Only who is about to tell tells others to look again, and only those who sleep there. -/
theorem Advances.woken_cases (h : Advances k t gathered task stage stage' k') (hk : k.Sound)
    {u : Thread} (hu : u ∈ k'.woken) :
    u ∈ k.woken ∨ ∃ s, stage.tells = some s ∧ k.cache.waits.waiting.lookup u = some s := by
  cases h with
  | find | comes | asks => exact Or.inl hu
  | look inside s eyes free entry looks => cases looks <;> exact Or.inl hu
  | rise inside s h =>
      obtain ⟨-, rfl⟩ := Crowd.rise_eq_some.mp h
      exact Or.inl (List.mem_filter.mp hu).1
  | leave s result outer refused h =>
      obtain ⟨-, rfl⟩ := Crowd.leave_eq_some.mp h
      exact Or.inl hu
  | write s result outer refused h =>
      obtain ⟨-, rfl⟩ := Crowd.write_eq_some.mp h
      exact Or.inl hu
  | tell s =>
      rcases List.mem_append.mp hu with hu | hu
      · exact Or.inl hu
      · exact Or.inr ⟨s, rfl, hk.mem_waiters.mp hu⟩

/-- Who was told to look again remembers it until the next own turn. -/
theorem Advances.still_woken (h : Advances k t gathered task stage stage' k') {u : Thread}
    (hu : u ≠ t) (hw : u ∈ k.woken) : u ∈ k'.woken := by
  cases h with
  | find | comes | asks => exact hw
  | look inside s eyes free entry looks => cases looks <;> exact hw
  | rise inside s h =>
      obtain ⟨-, rfl⟩ := Crowd.rise_eq_some.mp h
      exact List.mem_filter.mpr ⟨hw, by simpa using hu⟩
  | leave s result outer refused h =>
      obtain ⟨-, rfl⟩ := Crowd.leave_eq_some.mp h
      exact hw
  | write s result outer refused h =>
      obtain ⟨-, rfl⟩ := Crowd.write_eq_some.mp h
      exact hw
  | tell => exact List.mem_append_left _ hw

/-- An entry in progress stays so until its owner is about to tell. -/
theorem Advances.still_owned (h : Advances k t gathered task stage stage' k') (hk : k.Sound)
    {r : Serial} (ho : ∃ u, k.cache.ownerAt r = some u) :
    (∃ u, k'.cache.ownerAt r = some u) ∨ stage'.tells = some r := by
  have hfind : ∀ id, ∃ u, (k.find id).2.cache.ownerAt r = some u :=
    fun id => by rwa [Crowd.ownerAt_find]
  cases h with
  | find => exact Or.inl (hfind task.id)
  | look inside s eyes free entry looks =>
      left
      cases looks with
      | ready | refused | blocked => exact ho
      | claimed =>
          rw [Crowd.ownerAt_claimed (List.getElem?_eq_some_iff.mp entry).1]
          split
          · exact ⟨t, rfl⟩
          · exact ho
  | rise inside s h =>
      obtain ⟨-, rfl⟩ := Crowd.rise_eq_some.mp h
      exact Or.inl ho
  | comes => exact Or.inl ho
  | asks s id => exact Or.inl (hfind id)
  | leave s result outer refused h =>
      obtain ⟨-, rfl⟩ := Crowd.leave_eq_some.mp h
      exact Or.inl ho
  | write s result outer refused h =>
      obtain ⟨hleaving, rfl⟩ := Crowd.write_eq_some.mp h
      by_cases hr : r = s
      · exact Or.inr (hr ▸ rfl)
      · left
        rw [Crowd.ownerAt_written (Cache.lt_of_ownerAt (hk.leaving t s hleaving).1), if_neg hr]
        exact ho
  | tell => exact Or.inl ho

/-- Who is about to tell does so in the next turn. -/
theorem Advances.tells_woken (h : Advances k t gathered task stage stage' k') (hk : k.Sound)
    {r : Serial} (ht : stage.tells = some r) {u : Thread}
    (hu : k.cache.waits.waiting.lookup u = some r) : u ∈ k'.woken := by
  cases h with
  | look inside s eyes => rcases eyes with rfl | rfl <;> cases ht
  | tell s =>
      cases ht
      exact List.mem_append_right _ (hk.mem_waiters.mpr hu)
  | _ => cases ht

/-- Who goes to sleep does so at an entry in progress. -/
theorem Advances.sleeps (h : Advances k t gathered task stage stage' k') {r : Serial}
    (hr : stage'.sleepsAt = some r) :
    ∃ u, k'.cache.ownerAt r = some u := by
  cases h with
  | look inside s eyes free entry looks =>
      rw [sleepsAt_answered] at hr
      cases looks with
      | blocked owner marks h =>
          cases hr
          exact ⟨owner, Cache.ownerAt_eq_some.mpr ⟨marks, (Cache.stateAt_eq entry).trans h⟩⟩
      | _ => cases hr
  | tell =>
      rw [sleepsAt_closed] at hr
      cases hr
  | _ => cases hr

/-- Entries stay where they are. -/
theorem Advances.length_le (h : Advances k t gathered task stage stage' k') :
    k.cache.entries.length ≤ k'.cache.entries.length := by
  have hfind : ∀ id, k.cache.entries.length ≤ (k.find id).2.cache.entries.length := fun id => by
    simp only [Crowd.find, Cache.getOrCreate]
    split <;> simp
  cases h with
  | find => exact hfind task.id
  | look inside s eyes free entry looks => cases looks <;> simp [Cache.setState]
  | rise inside s h => simp [(Crowd.rise_eq_some.mp h).2]
  | comes => exact Nat.le_refl _
  | asks s id => exact hfind id
  | leave s result outer refused h => simp [(Crowd.leave_eq_some.mp h).2]
  | write s result outer refused h => simp [(Crowd.write_eq_some.mp h).2, Cache.setState]
  | tell => exact Nat.le_refl _

/-- Who has started does not go back. -/
theorem Advances.started (h : Advances k t gathered task stage stage' k')
    (hs : stage.started = true) :
    stage'.started = true := by
  cases h with
  | find => cases hs
  | look inside s eyes free entry looks =>
      cases inside with
      | none => rcases eyes with rfl | rfl <;> cases hs
      | some r => cases looks <;> rfl
  | rise => exact hs
  | tell s result outer refused => cases outer <;> rfl
  | _ => rfl

/-- What is sought has been made. -/
theorem Advances.made (h : Advances k t gathered task stage stage' k')
    (hk : ∀ s, stage.seeks = some s → s < k.cache.entries.length) {s : Serial}
    (hs : stage'.seeks = some s) :
    s < k'.cache.entries.length := by
  cases h with
  | find =>
      cases hs
      exact k.cache.getOrCreate_lt task.id
  | look inside r eyes free entry looks =>
      rw [seeks_answered] at hs
      cases looks with
      | blocked =>
          cases hs
          exact (List.getElem?_eq_some_iff.mp entry).1
      | _ => cases hs
  | rise inside r h =>
      obtain ⟨-, rfl⟩ := Crowd.rise_eq_some.mp h
      exact hk s hs
  | asks r id =>
      cases hs
      exact k.cache.getOrCreate_lt id
  | tell =>
      rw [seeks_closed] at hs
      cases hs
  | _ => cases hs

end Advances

end Crew

end FSharpWorkspace
