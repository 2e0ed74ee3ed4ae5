import FSharpWorkspace.Cache.Threads
import FSharpWorkspace.Proofs.Threads.Graph
/-!
# Threads that wait do not wait in a circle

A `Crowd` keeps the graph of waits and the entries apart, and its moves change one or the other.
`Crowd.Sound` says how they agree between any two moves: the table of owners lists the owners of
entries in progress, but for those who have left their entry and not yet written into it, every
thread waits for one entry at most, and the graph has no circle.

* A thread that takes an entry becomes somebody that others follow. It waits for nothing itself, so
  no circle closes, even if those others began to wait for an owner before.
* A thread that goes to sleep follows an owner from whom no way leads back, for that is
  what was looked for.
* All other moves take edges away, or leave them as they are.
-/

set_option autoImplicit false

namespace FSharpWorkspace

open Relation

/-! ## Owners of entries -/

namespace Cache

variable {ν : Type}

theorem stateAt_setState {c : Cache ν} {s : Serial} (hs : s < c.entries.length)
    (state : EntryState ν) (r : Serial) :
    (c.setState s state).stateAt r = if r = s then state else c.stateAt r := by
  unfold stateAt
  by_cases h : r = s
  · rw [if_pos h, h, getElem?_setState_eq, List.getElem?_eq_getElem hs]
    rfl
  · rw [if_neg h, getElem?_setState_ne c state (Ne.symm h)]

theorem ownerAt_setState {c : Cache ν} {s : Serial} (hs : s < c.entries.length)
    (state : EntryState ν) (r : Serial) :
    (c.setState s state).ownerAt r = if r = s then state.owner? else c.ownerAt r := by
  unfold ownerAt
  rw [stateAt_setState hs]
  split <;> rfl

theorem ownerAt_eq_some {c : Cache ν} {s : Serial} {t : Thread} :
    c.ownerAt s = some t ↔ ∃ marks, c.stateAt s = .inProgress t marks := by
  unfold ownerAt
  cases h : c.stateAt s with
  | uncomputed => simp [EntryState.owner?]
  | done v => simp [EntryState.owner?]
  | inProgress owner marks => simp [EntryState.owner?]

/-- An entry that somebody computes has been made. -/
theorem lt_of_ownerAt {c : Cache ν} {s : Serial} {t : Thread} (h : c.ownerAt s = some t) :
    s < c.entries.length := by
  by_contra hs
  have hnone : c.entries[s]? = none := List.getElem?_eq_none_iff.mpr (Nat.not_lt.mp hs)
  simp [ownerAt, stateAt, hnone, EntryState.owner?] at h

/-- A new entry is as good as one that is not made yet. -/
theorem stateAt_getOrCreate (c : Cache ν) (id : Identity) (r : Serial) :
    (c.getOrCreate id).2.stateAt r = c.stateAt r := by
  unfold getOrCreate
  split
  · rfl
  · unfold stateAt
    rcases Nat.lt_trichotomy r c.entries.length with h | rfl | h
    · simp [List.getElem?_append_left h]
    · simp
    · have hold : c.entries[r]? = none := List.getElem?_eq_none_iff.mpr (Nat.le_of_lt h)
      have hnew : (c.entries ++ [⟨id, true, .uncomputed⟩])[r]? = none :=
        List.getElem?_eq_none_iff.mpr (by simpa using Nat.succ_le_of_lt h)
      simp [hold, hnew]

theorem waits_getOrCreate (c : Cache ν) (id : Identity) : (c.getOrCreate id).2.waits = c.waits := by
  unfold getOrCreate
  split <;> rfl

theorem owner?_mark (l : Location) (e : Entry ν) : (e.mark l).state.owner? = e.state.owner? := by
  unfold Entry.mark
  split
  · rename_i h
    simp [h, EntryState.owner?]
  · rfl

theorem ownerAt_invalidate (c : Cache ν) (l : Location) (r : Serial) :
    (c.invalidate l).ownerAt r = c.ownerAt r := by
  unfold ownerAt stateAt invalidate
  simp only [List.getElem?_map]
  cases c.entries[r]? with
  | none => rfl
  | some e =>
      simp only [Option.map_some, Option.elim_some]
      split <;> split <;> simp [owner?_mark]

theorem owner?_handedIn (stale : ν → Location → Bool) (v : ν) (state : EntryState ν) :
    (handedIn stale v state).owner? = none := by
  unfold handedIn
  split
  · split <;> rfl
  · rfl

end Cache

/-! ## Crowds -/

namespace Crowd

variable {ν : Type} {k k' : Crowd ν} {t u : Thread} {s : Serial}

def WaitsFor (k : Crowd ν) (t u : Thread) : Prop :=
  ∃ s, k.cache.waits.waiting.lookup t = some s ∧ k.cache.ownerAt s = some u

theorem isAsleep_eq_false : k.isAsleep t = false ↔ k.cache.waits.waiting.lookup t = none := by
  simp [isAsleep]

theorem isFree_iff :
    k.isFree t = true ↔ k.cache.waits.waiting.lookup t = none ∧ ∀ s, (t, s) ∉ k.leaving := by
  simp only [isFree, Bool.and_eq_true, Bool.not_eq_true', isAsleep_eq_false]
  refine and_congr_right fun _ => ?_
  simp only [isLeaving, List.any_eq_false, decide_eq_true_eq, Prod.forall]
  exact ⟨fun h s hs => h t s hs rfl, fun h u s hs hu => h s (hu ▸ hs)⟩

/-! ### What a look comes to -/

/-- A look of `t` at the entry `e`, whose serial is `s`, and the crowd after it. -/
inductive Looks (k : Crowd ν) (t : Thread) (s : Serial) (e : Entry ν) :
    Request ν → Crowd ν → Prop where
  | ready (v : ν) (h : e.state = .done v) : Looks k t s e (.ready v) k
  | claimed (h : e.state = .uncomputed) :
    Looks k t s e (.claimed s e.id)
      { k with cache :=
        { k.cache.setState s (.inProgress t []) with waits := k.cache.waits.own s t } }
  | refused (owner : Thread) (marks : List Location) (h : e.state = .inProgress owner marks)
    (back : ReflTransGen k.cache.waits.Follows owner t) : Looks k t s e (.refused e.id) k
  | blocked (owner : Thread) (marks : List Location) (h : e.state = .inProgress owner marks)
    (away : ¬ ReflTransGen k.cache.waits.Follows owner t) :
    Looks k t s e (.blocked s) { k with cache := { k.cache with waits := k.cache.waits.wait t s } }

/-- A free entry can only be claimed. -/
theorem Looks.claimed_of_free {e : Entry ν} {answer : Request ν} {k' : Crowd ν}
    (h : k.Looks t s e answer k') (hfree : e.state = .uncomputed) : answer = .claimed s e.id := by
  cases h with
  | claimed => rfl
  | ready _ h | refused _ _ h | blocked _ _ h => cases h.symm.trans hfree

/-- A thread that is free can look at any entry. -/
theorem exists_look {e : Entry ν} (hfree : k.isFree t = true) (he : k.cache.entries[s]? = some e) :
    ∃ answer k', k.look t s = some (answer, k') ∧ k.Looks t s e answer k' := by
  have hst : k.cache.stateAt s = e.state := Cache.stateAt_eq he
  have hlook : k.look t s =
      some ((k.cache.request t s e.id).1, { k with cache := (k.cache.request t s e.id).2 }) := by
    simp [look, hfree, he]
  refine ⟨_, _, hlook, ?_⟩
  unfold Cache.request
  rw [hst]
  cases h : e.state with
  | uncomputed => exact .claimed h
  | done v => exact .ready v h
  | inProgress owner marks =>
      by_cases hb : k.cache.waits.leadsBack t owner = true
      · simp only [if_pos hb]
        exact .refused owner marks h ((WaitGraph.leadsBack_iff _ _ _).mp hb)
      · simp only [if_neg hb]
        exact .blocked owner marks h fun hback => hb ((WaitGraph.leadsBack_iff _ _ _).mpr hback)

theorem look_cases {answer : Request ν} (h : k.look t s = some (answer, k')) :
    k.isFree t = true ∧ ∃ e, k.cache.entries[s]? = some e ∧ k.Looks t s e answer k' := by
  have hfree : k.isFree t = true := by
    by_contra hn
    simp [look, hn] at h
  cases he : k.cache.entries[s]? with
  | none => simp [look, hfree, he] at h
  | some e =>
      obtain ⟨answer', k'', hlook, hl⟩ := exists_look hfree he
      obtain ⟨rfl, rfl⟩ := Prod.mk.inj (Option.some.inj (h.symm.trans hlook))
      exact ⟨hfree, e, rfl, hl⟩

/-! ### The other moves, when they can be made -/

theorem rise_eq_some : k.rise t = some k' ↔ (k.isAsleep t = true ∧ t ∈ k.woken) ∧
    k' = { k with
      cache := { k.cache with waits := k.cache.waits.wake t }
      woken := k.woken.filter (· ≠ t) } := by
  simp only [rise, Bool.and_eq_true, List.contains_iff_mem, Option.ite_none_right_eq_some,
    Option.some.injEq, eq_comm (b := k')]

theorem leave_eq_some : k.leave t s = some k' ↔ (k.isFree t = true ∧ k.cache.ownerAt s = some t) ∧
    k' = { k with
      cache := { k.cache with waits := k.cache.waits.disown s }
      leaving := (t, s) :: k.leaving } := by
  simp only [leave, Bool.and_eq_true, decide_eq_true_eq, Option.ite_none_right_eq_some,
    Option.some.injEq, eq_comm (b := k')]

theorem write_eq_some {result : Option ν} {stale : ν → Location → Bool} :
    k.write t s result stale = some k' ↔ (t, s) ∈ k.leaving ∧
      k' = { k with
        cache := k.cache.setState s (result.elim .uncomputed fun v =>
          Cache.handedIn stale v (k.cache.stateAt s))
        leaving := k.leaving.filter (· ≠ (t, s)) } := by
  simp only [write, List.contains_iff_mem, Option.ite_none_right_eq_some, Option.some.injEq,
    eq_comm (b := k')]

/-! ### Owners after a move -/

theorem ownerAt_find (k : Crowd ν) (id : Identity) (r : Serial) :
    (k.find id).2.cache.ownerAt r = k.cache.ownerAt r :=
  congrArg EntryState.owner? (Cache.stateAt_getOrCreate _ _ _)

theorem ownerAt_claimed {c : Cache ν} (hs : s < c.entries.length) (t : Thread) (w : WaitGraph)
    (r : Serial) :
    Cache.ownerAt { c.setState s (.inProgress t []) with waits := w } r = if r = s then
      some t else c.ownerAt r :=
  Cache.ownerAt_setState hs _ r

/-- An entry that was written into has no owner, whatever was written. -/
theorem ownerAt_written {c : Cache ν} (hs : s < c.entries.length) (result : Option ν)
    (stale : ν → Location → Bool) (r : Serial) :
    (c.setState s (result.elim .uncomputed fun v =>
      Cache.handedIn stale v (c.stateAt s))).ownerAt r =
      if r = s then none else c.ownerAt r := by
  rw [Cache.ownerAt_setState hs]
  cases result with
  | none => rfl
  | some v => simp [Cache.owner?_handedIn]

/-! ### What every move keeps -/

/-- How the tables of the graph and the entries agree. -/
structure Sound (k : Crowd ν) : Prop where
  owners : ∀ s t, k.cache.waits.owners.lookup s = some t ↔
    k.cache.ownerAt s = some t ∧ (t, s) ∉ k.leaving
  leaving : ∀ t s, (t, s) ∈ k.leaving → k.cache.ownerAt s = some t ∧ k.isAsleep t = false
  acyclic : k.cache.waits.Acyclic
  once : k.cache.waits.Once

theorem Sound.gather {c : Cache ν} (hw : c.waits = .empty) (ho : ∀ s, c.ownerAt s = none) :
    (Crowd.gather c).Sound where
  owners s t := by simp [Crowd.gather, hw, ho, WaitGraph.empty]
  leaving t s h := by cases h
  acyclic t ht := by
    obtain ⟨u, hu, -⟩ := TransGen.head'_iff.mp ht
    simp [Crowd.gather, hw, WaitGraph.empty, WaitGraph.follows_iff] at hu
  once t s h := by simp [Crowd.gather, hw, WaitGraph.empty] at h

/-- A move that touches neither the graph nor the owners. -/
theorem Sound.of_same (hk : k.Sound) (hw : k'.cache.waits = k.cache.waits)
    (ho : ∀ s, k'.cache.ownerAt s = k.cache.ownerAt s)
    (hl : k'.leaving = k.leaving) : k'.Sound where
  owners s t := by rw [hw, ho, hl]; exact hk.owners s t
  leaving t s h := by
    have hold := hk.leaving t s (hl ▸ h)
    unfold isAsleep at hold ⊢
    rwa [ho, hw]
  acyclic := by rw [hw]; exact hk.acyclic
  once := by rw [hw]; exact hk.once

theorem Sound.mem_waiters (hk : k.Sound) :
    t ∈ k.waiters s ↔ k.cache.waits.waiting.lookup t = some s := by
  simp only [waiters, List.mem_map, List.mem_filter, decide_eq_true_eq]
  constructor
  · rintro ⟨⟨u, r⟩, ⟨hmem, rfl⟩, rfl⟩
    exact hk.once u r hmem
  · intro h
    obtain ⟨before, after, hsplit, -⟩ := List.lookup_eq_some_iff.mp h
    exact ⟨(t, s), ⟨by rw [hsplit]; simp, rfl⟩, rfl⟩

theorem Sound.find (hk : k.Sound) (id : Identity) : (k.find id).2.Sound :=
  hk.of_same (Cache.waits_getOrCreate _ _) (ownerAt_find k id) rfl

theorem Sound.look {e : Entry ν} {answer : Request ν} (hk : k.Sound) (hfree : k.isFree t = true)
    (he : k.cache.entries[s]? = some e) (h : k.Looks t s e answer k') : k'.Sound := by
  have hst : k.cache.stateAt s = e.state := Cache.stateAt_eq he
  have hlen : s < k.cache.entries.length := (List.getElem?_eq_some_iff.mp he).1
  obtain ⟨hawake, hleft⟩ := isFree_iff.mp hfree
  cases h with
  | ready | refused => exact hk
  | claimed h =>
      have hfreeEntry : ∀ u, (u, s) ∉ k.leaving := by
        intro u hu
        have := (hk.leaving u s hu).1
        simp [Cache.ownerAt, hst, h, EntryState.owner?] at this
      refine ⟨fun r u => ?_, fun u r hu => ?_, ?_, hk.once⟩
      · rw [ownerAt_claimed hlen, WaitGraph.lookup_owners_own]
        by_cases hr : r = s
        · subst hr
          simp only [if_true]
          exact ⟨fun h => ⟨h, hfreeEntry u⟩, fun h => h.1⟩
        · simp only [if_neg hr]
          exact hk.owners r u
      · have hold := hk.leaving u r hu
        have hr : r ≠ s := fun hr => hfreeEntry u (hr ▸ hu)
        rw [ownerAt_claimed hlen, if_neg hr]
        exact hold
      · -- the new owner waits for nothing
        exact hk.acyclic.of_sink (fun v => WaitGraph.not_follows hawake)
          fun u v => WaitGraph.Follows.of_own
  | blocked owner marks h away =>
      refine ⟨hk.owners, fun u r hu => ⟨(hk.leaving u r hu).1, ?_⟩, ?_, hk.once.wait t s⟩
      · have hne : u ≠ t := by
          rintro rfl
          exact hleft r hu
        have hold := isAsleep_eq_false.mp (hk.leaving u r hu).2
        rw [isAsleep_eq_false, WaitGraph.lookup_waiting_wait, if_neg hne]
        exact hold
      · refine hk.acyclic.of_edge away fun u v huv => ?_
        rcases huv.of_wait with ⟨rfl, hv⟩ | huv
        · have hv' := ((hk.owners s v).mp hv).1
          rw [Cache.ownerAt, hst, h] at hv'
          exact Or.inl ⟨rfl, (Option.some.inj hv').symm⟩
        · exact Or.inr huv

theorem Sound.rise (hk : k.Sound) (h : k.rise t = some k') : k'.Sound := by
  obtain ⟨-, rfl⟩ := rise_eq_some.mp h
  refine ⟨hk.owners, fun u r hu => ⟨(hk.leaving u r hu).1, ?_⟩, ?_, hk.once.wake t⟩
  · have hold := isAsleep_eq_false.mp (hk.leaving u r hu).2
    rw [isAsleep_eq_false, WaitGraph.lookup_waiting_wake, hold, ite_self]
  · exact hk.acyclic.mono fun u v huv => (WaitGraph.follows_wake.mp huv).2

theorem Sound.leave (hk : k.Sound) (h : k.leave t s = some k') : k'.Sound := by
  obtain ⟨⟨hfree, howner⟩, rfl⟩ := leave_eq_some.mp h
  refine ⟨fun r u => ?_, fun u r hu => ?_,
    hk.acyclic.mono fun u v => WaitGraph.Follows.of_disown, hk.once⟩
  · rw [WaitGraph.lookup_owners_disown]
    by_cases hr : r = s
    · subst hr
      simp only [if_true, reduceCtorEq, false_iff, List.mem_cons, Prod.mk.injEq, and_true, not_or,
        not_and, not_not]
      rintro hu hne
      exact absurd (Option.some.inj (hu.symm.trans howner)) hne
    · rw [if_neg hr, hk.owners]
      exact and_congr_right fun _ => by simp [hr]
  · rcases List.mem_cons.mp hu with heq | hu
    · obtain ⟨rfl, rfl⟩ := Prod.mk.inj heq
      exact ⟨howner, isAsleep_eq_false.mpr (isFree_iff.mp hfree).1⟩
    · exact hk.leaving u r hu

theorem Sound.write {result : Option ν} {stale : ν → Location → Bool} (hk : k.Sound)
    (h : k.write t s result stale = some k') : k'.Sound := by
  obtain ⟨hleaving, rfl⟩ := write_eq_some.mp h
  have howner := (hk.leaving t s hleaving).1
  have hlen := Cache.lt_of_ownerAt howner
  refine ⟨fun r u => ?_, fun u r hu => ?_, hk.acyclic, hk.once⟩
  · rw [ownerAt_written hlen]
    show k.cache.waits.owners.lookup r = some u ↔ _
    rw [hk.owners]
    by_cases hr : r = s
    · -- the writer is the only one that could be an owner, and it has left
      subst hr
      simp only [if_true, reduceCtorEq, false_and, iff_false, not_and, not_not]
      intro hu
      obtain rfl := Option.some.inj (hu.symm.trans howner)
      exact hleaving
    · rw [if_neg hr]
      simp [hr]
  · obtain ⟨hu, hne⟩ := List.mem_filter.mp hu
    have hold := hk.leaving u r hu
    have hr : r ≠ s := by
      rintro rfl
      obtain rfl := Option.some.inj (hold.1.symm.trans howner)
      simp at hne
    rw [ownerAt_written hlen, if_neg hr]
    exact hold

theorem Sound.after {move : Move ν} (hk : k.Sound) (h : k.after move = some k') : k'.Sound := by
  cases move with
  | find id =>
      cases h
      exact hk.find id
  | look t s =>
      obtain ⟨⟨answer, k''⟩, hlook, rfl⟩ := Option.map_eq_some_iff.mp h
      obtain ⟨hfree, e, he, hl⟩ := look_cases hlook
      exact hk.look hfree he hl
  | rise t => exact hk.rise h
  | leave t s => exact hk.leave h
  | write t s result stale => exact hk.write h
  | tell s =>
      cases h
      exact hk.of_same rfl (fun _ => rfl) rfl
  | invalidate l =>
      cases h
      exact hk.of_same rfl (Cache.ownerAt_invalidate _ l) rfl

theorem Sound.run {moves : List (Move ν)} (hk : k.Sound)
    (h : Crowd.run moves k = some k') : k'.Sound := by
  induction moves generalizing k with
  | nil =>
      cases h
      exact hk
  | cons move moves ih =>
      obtain ⟨k₁, hmove, hrest⟩ := Option.bind_eq_some_iff.mp h
      exact ih (hk.after hmove) hrest

/-! ### No deadlock -/

/-- Around a circle everybody sleeps, so nobody has left the entry that another waits for. -/
theorem Sound.not_waitsFor_self (hk : k.Sound) (t : Thread) : ¬ TransGen k.WaitsFor t t := by
  have asleep : ∀ {u v}, TransGen k.WaitsFor u v → k.isAsleep u = true := by
    intro u v huv
    obtain ⟨x, ⟨s, hs, -⟩, -⟩ := TransGen.head'_iff.mp huv
    simp [isAsleep, hs]
  have edge : ∀ {u v}, k.WaitsFor u v → k.isAsleep v = true → k.cache.waits.Follows u v := by
    rintro u v ⟨s, hs, hv⟩ hasleep
    refine WaitGraph.follows_iff.mpr ⟨s, hs, (hk.owners s v).mpr ⟨hv, fun hleft => ?_⟩⟩
    rw [(hk.leaving v s hleft).2] at hasleep
    cases hasleep
  intro ht
  have hend : k.isAsleep t = true := asleep ht
  have key : ∀ u, TransGen k.WaitsFor u t → TransGen k.cache.waits.Follows u t := by
    intro u hu
    induction hu using TransGen.head_induction_on with
    | single hut => exact .single (edge hut hend)
    | head huv hvt ih => exact .head (edge huv (asleep hvt)) ih
  exact hk.acyclic t (key t ht)

/-- Some moves, in some order, lead from an empty cache to the crowd. -/
def Reached (k : Crowd ν) : Prop := ∃ moves, Crowd.run moves (.gather .empty) = some k

theorem Reached.sound (h : k.Reached) : k.Sound := by
  obtain ⟨moves, h⟩ := h
  exact (Sound.gather rfl fun _ => rfl).run h

/-- **No deadlock.** However many threads make their moves at a cache, in whatever order, no
threads ever sleep around a circle in which each waits for an entry of the next, and the graph of
waits has no circle either. A thread that is free may look at any entry. It is refused if and only
if somebody computes the entry, from whom one comes back to the thread by following waits and
owners any number of times. If somebody computes the entry and the way does not lead back, the
thread goes to sleep there. -/
theorem Reached.no_deadlock (h : k.Reached) :
    (∀ t, ¬ TransGen k.WaitsFor t t) ∧ (∀ t, ¬ TransGen k.cache.waits.Follows t t) ∧
    ∀ t s, k.isFree t = true → s < k.cache.entries.length →
      ∃ answer k', k.look t s = some (answer, k') ∧
        ((∃ id, answer = .refused id) ↔
          ∃ owner, k.cache.ownerAt s = some owner ∧ ReflTransGen k.cache.waits.Follows owner t) ∧
        ∀ owner, k.cache.ownerAt s = some owner → ¬ ReflTransGen k.cache.waits.Follows owner t →
          answer = .blocked s ∧ k'.WaitsFor t owner := by
  refine ⟨h.sound.not_waitsFor_self, h.sound.acyclic, fun t s hfree hs => ?_⟩
  obtain ⟨answer, k', hlook, hl⟩ := exists_look hfree (List.getElem?_eq_getElem hs)
  have howner : k.cache.ownerAt s = (k.cache.entries[s]).state.owner? :=
    congrArg EntryState.owner? (Cache.stateAt_eq (List.getElem?_eq_getElem hs))
  refine ⟨answer, k', hlook, ?_⟩
  rw [howner]
  cases hl with
  | ready v h => simp [h, EntryState.owner?]
  | claimed h => simp [h, EntryState.owner?]
  | refused owner marks h back => simp [h, EntryState.owner?, back]
  | blocked owner marks h away =>
      refine ⟨by simp [h, EntryState.owner?, away], fun owner' howner' _ => ⟨rfl, s, ?_, ?_⟩⟩
      · rw [WaitGraph.lookup_waiting_wait, if_pos rfl]
      · exact howner.trans howner'

/-- Two threads take a file each, and the first goes to sleep at the file of the second. -/
def halfway : List (Move Nat) :=
  [.find ⟨⟨["a.fsproj"]⟩, .project⟩, .find ⟨⟨["b.fsproj"]⟩, .project⟩,
    .look 1 0, .look 2 1, .look 1 1]

/-- The crowd in which one more wait would close a circle. -/
def halfCircle : Crowd Nat := (Crowd.run halfway (.gather .empty)).getD (.gather .empty)

/-- The second thread is refused the file of the first. -/
theorem no_deadlock_halfCircle : ∃ answer k', halfCircle.Reached ∧ halfCircle.isFree 2 = true ∧
    halfCircle.look 2 0 = some (answer, k') ∧ ∃ id, answer = .refused id := by
  have hreached : halfCircle.Reached := ⟨halfway, rfl⟩
  obtain ⟨answer, k', hlook, hiff, -⟩ := hreached.no_deadlock.2.2 2 0 (by decide) (by decide)
  have hwaits : halfCircle.cache.waits.next? 1 = some 2 := rfl
  exact ⟨answer, k', hreached, by decide, hlook, hiff.mpr ⟨1, by decide, .single hwaits⟩⟩

end Crowd

end FSharpWorkspace
