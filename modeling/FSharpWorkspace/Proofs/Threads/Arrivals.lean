import FSharpWorkspace.Cache.Program
import FSharpWorkspace.Proofs.Threads.Ring
/-!
# Who is refused in a ring

The second request of a thread arrives when the thread looks at the next file for the first time.
`Crew.arrivals` lists the threads of a ring in this order, and `Crew.stirred` those that were told
to look again for no reason.

Who is told to look again with a reason finds the value that it waits for (`Crew.Calm`). So a
thread that was not stirred can be refused only when it looks at the next file for the first time.
All others sleep then, so it is the last to arrive (`Ordered.turn`). The last to arrive is refused
if nobody was stirred, for otherwise all would sleep, each waiting for the next
(`Ring.refused_of_all_asked`).

A stirred thread looks again. If the last request arrives in between, it is the stirred thread
that is led back to itself, though its request came first (`ring_law_disturbed`).
-/

set_option autoImplicit false

namespace FSharpWorkspace

open Relation

/-- Whether the second request of a thread has arrived. -/
def Stage.asked {ν : Type} : Stage ν → Bool
  | asleep inside _ => inside.isSome
  | awake inside _ => inside.isSome
  | closing _ _ _ _ _ => true
  | ended _ _ _ => true
  | _ => false

/-- Whether the second request of a thread arrives with its next turn. -/
def Stage.arriving {ν : Type} : Stage ν → Bool
  | looking inside _ => inside.isSome
  | _ => false

theorem Stage.not_arriving_of_asked {ν : Type} {stage : Stage ν} (h : stage.asked = true) :
    stage.arriving = false := by
  cases stage with
  | looking => cases h
  | _ => rfl

theorem Stage.asked_of_wasRefused {ν : Type} {stage : Stage ν} (h : stage.wasRefused = true) :
    stage.asked = true := by
  cases stage with
  | closing | ended => rfl
  | _ => cases h

namespace Crew

variable {ν : Type} {n : Nat} {place : Nat → Location} {value : Nat → ν} {crew : Crew ν}

/-! ## Coming to an end -/

/-- A ring at rest has started. -/
theorem Ring.gathered_of_rest (hr : Ring n place value crew) (hc : crew.Sound)
    (hrest : crew.AtRest) : crew.gathered = true := by
  by_contra hnot
  have hmet : ∀ i task stage, crew.Member i task stage → stage.met = false :=
    fun i task stage hm => by
      by_contra hmet
      exact hnot (hr.met i task stage hm (Bool.not_eq_false _ ▸ hmet))
  refine hnot (gathered_iff.mpr fun i task stage hm => ?_)
  rcases hc.of_advance_eq_none hm (hc.advance_eq_none (hrest i) hm) with
    hended | ⟨r, hsleeps, -⟩ | ⟨⟨s, rfl⟩, -⟩
  · obtain ⟨outcome, computed, refused, rfl⟩ := Stage.isEnded_iff.mp hended
    rfl
  · obtain ⟨-, s, rfl⟩ := (hr.stages i task stage hm).serial_of_sleepsAt hsleeps
    rfl
  · rfl

/-- In a ring that has come to its end everybody has the own value, and somebody was refused. -/
theorem Ring.ended_of_rest (hr : Ring n place value crew) (hc : crew.Sound) (hn : 0 < n)
    (hrest : crew.AtRest) :
    (∀ i < n, ∃ task refused, crew.Member i task (.ended (.value (value i)) true refused)) ∧
      ∃ i task stage, crew.Member i task stage ∧ stage.wasRefused = true := by
  have hended := hc.ended_of_rest hrest (Or.inl (hr.gathered_of_rest hc hrest))
  refine ⟨fun i hi => ?_, ?_⟩
  · obtain ⟨task, stage, hm⟩ := hr.exists_member hi
    obtain ⟨outcome, computed, refused, rfl⟩ := Stage.isEnded_iff.mp (hended i task stage hm)
    cases hr.stages i task _ hm with
    | ended => exact ⟨task, refused, hm⟩
  · by_contra hnone
    obtain ⟨task, stage, hm⟩ := hr.exists_member hn
    obtain ⟨outcome, computed, refused, rfl⟩ := Stage.isEnded_iff.mp (hended 0 task stage hm)
    have hcalm : ∀ i task stage, crew.Member i task stage → stage.wasRefused = false := by
      intro i task stage hm
      by_contra h
      exact hnone ⟨i, task, stage, hm, Bool.not_eq_false _ ▸ h⟩
    cases hr.silent hcalm 0 task _ hm

/-! ## Looking again -/

/-- Who is told to look again finds a value, unless it was stirred. -/
structure Calm (crew : Crew ν) (stirred : List Nat) : Prop where
  awake : ∀ i ∉ stirred, ∀ task s r, crew.Member i task (.awake (some s) r) →
    ∃ v, crew.crowd.cache.stateAt r = .done v
  woken : ∀ i ∉ stirred, ∀ task s r, crew.Member i task (.asleep (some s) r) →
    crew.first + i ∈ crew.crowd.woken → ∃ v, crew.crowd.cache.stateAt r = .done v

section Turn

variable {i : Nat} {task : Task ν} {stage stage' : Stage ν} {k' : Crowd ν} {stirred : List Nat}

theorem Ring.calm_turn (hr : Ring n place value crew) (hc : crew.Sound) (hcalm : crew.Calm stirred)
    (hm : crew.Member i task stage)
    (ha : Advances crew.crowd (crew.first + i) crew.gathered task stage stage' k') :
    Calm { crew with crowd := k', members := crew.members.set i (task, stage') } stirred := by
  have hown := hr.stages i task stage hm
  have hdone : ∀ r, (∃ v, crew.crowd.cache.stateAt r = .done v) →
      ∃ v, k'.cache.stateAt r = .done v := by
    rintro r ⟨v, hv⟩
    exact ⟨v, ha.still_done hc.crowd hv⟩
  refine ⟨fun j hquiet task₁ s r hj => ?_, fun j hquiet task₁ s r hj hwoken => ?_⟩
  · rcases (member_set k' hm).mp hj with ⟨rfl, rfl, hstage⟩ | ⟨-, hold⟩
    · -- the thread rises, so it slept, and was told to look again
      cases ha with
      | look inside s' eyes free entry looks => cases looks <;> cases inside <;> cases hstage
      | rise inside s' hrise =>
          cases hstage
          exact hdone r (hcalm.woken j hquiet _ s r hm (Crowd.rise_eq_some.mp hrise).1.2)
      | tell s' result outer refused => cases outer <;> cases hstage
      | _ => cases hstage
    · exact hdone r (hcalm.awake j hquiet _ s r hold)
  · rcases (member_set k' hm).mp hj with ⟨rfl, rfl, hstage⟩ | ⟨-, hold⟩
    · -- the thread goes to sleep, and nobody has told it anything
      exfalso
      have hawake : stage.sleepsAt = none ∧ stage.tells = none := by
        cases ha with
        | look inside s' eyes => rcases eyes with rfl | rfl <;> exact ⟨rfl, rfl⟩
        | tell s' result outer refused => cases outer <;> cases hstage
        | _ => cases hstage
      have hasleep := hc.woken _ (ha.woken_subset hc.crowd hawake.2 hwoken)
      unfold Crowd.isAsleep at hasleep
      rw [(hc.does _).sleeps, stageOf_eq hm, hawake.1] at hasleep
      cases hasleep
    · rcases ha.woken_cases hc.crowd hwoken with hbefore | ⟨s', htells, hsleeps⟩
      · exact hdone r (hcalm.woken j hquiet _ s r hold hbefore)
      · -- who tells has written the value
        rw [(hc.does _).sleeps, stageOf_eq hold] at hsleeps
        obtain rfl : r = s' := Option.some.inj hsleeps
        cases hown with
        | closing step _ refused file kept =>
            cases step with
            | tell =>
                cases htells
                exact hdone r ⟨_, kept rfl⟩
            | _ => cases htells
        | _ => cases htells

/-- When all requests have arrived and nobody was stirred, somebody was refused. -/
theorem Ring.refused_of_all_asked (hr : Ring n place value crew) (hc : crew.Sound)
    (hcalm : crew.Calm []) (hn : 0 < n)
    (hall : ∀ i task stage, crew.Member i task stage → stage.asked = true) :
    ∃ i task stage, crew.Member i task stage ∧ stage.wasRefused = true := by
  -- with no refusal every thread sleeps on the slot the next one holds, and no crowd closes
  -- such a circle of waits
  by_contra hnone
  have hpast := hr.silent fun i task stage hm => by
    by_contra h
    exact hnone ⟨i, task, stage, hm, Bool.not_eq_false _ ▸ h⟩
  have hasleep : ∀ i task stage, crew.Member i task stage → ∃ s r, stage = .asleep (some s) r := by
    intro i task stage hm
    have hasked := hall i task stage hm
    have hnot := hpast i task stage hm
    cases hr.stages i task stage hm with
    | asleep s r => exact ⟨s, r, rfl⟩
    | awake s r file other =>
        obtain ⟨v, hv⟩ := hcalm.awake i List.not_mem_nil task s r hm
        obtain ⟨task', stage', hm', h⟩ := hr.past_of_done hc hm rfl other hv
        rw [hpast _ _ _ hm'] at h
        cases h
    | closing | ended => cases hnot
    | _ => cases hasked
  suffices hnext : ∀ i < n, True → ∃ j < n, True ∧
      crew.crowd.WaitsFor (crew.first + i) (crew.first + j) from
    not_all_wait hc.crowd.not_waitsFor_self hnext 0 hn trivial
  intro i hi _
  obtain ⟨task, stage, hm⟩ := hr.exists_member hi
  obtain ⟨s, r, rfl⟩ := hasleep i task stage hm
  obtain ⟨task', stage', r', hm', hfile, hmem | ⟨-, h⟩⟩ := hr.next_taken hm rfl
  · obtain ⟨hother, -⟩ := (hr.stages i task _ hm).serial_of_sleepsAt rfl
    obtain rfl := Option.some.inj (hother.symm.trans hfile)
    refine ⟨succ n i, succ_lt hi, trivial, r, ?_, ((hc.does _).owns r).mpr (stageOf_eq hm' ▸ hmem)⟩
    rw [(hc.does _).sleeps, stageOf_eq hm]
    rfl
  · rw [hpast _ _ _ hm'] at h
    cases h

/-- A thread that was not stirred is refused when its request arrives. -/
theorem Ring.arriving_of_refused (hr : Ring n place value crew) (hcalm : crew.Calm stirred)
    (hquiet : i ∉ stirred) (hm : crew.Member i task stage)
    (ha : Advances crew.crowd (crew.first + i) crew.gathered task stage stage' k')
    (hnot : stage.wasRefused = false) (hrefused : stage'.wasRefused = true) :
    stage.arriving = true := by
  rcases (hr.stages i task stage hm).refused_of_advance ha hrefused with
    h | ⟨s, r, owner, rfl | rfl, howner, -⟩
  · rw [hnot] at h
    cases h
  · rfl
  · obtain ⟨v, hv⟩ := hcalm.awake i hquiet task s r hm
    cases (Cache.ownerAt_of_done hv).symm.trans howner

/-- A request that arrives has arrived after the turn. -/
theorem Circles.asked_of_advance {k : Crowd ν} {t : Thread} {gathered : Bool}
    {own next : Location} {v : ν} (h : Circles k.cache own next v stage)
    (ha : Advances k t gathered task stage stage' k') (hnext : task.next ≠ none) :
    stage'.asked = (stage.asked || stage.arriving) := by
  cases ha with
  | look inside s eyes free entry looks =>
      rcases h.eyes eyes with ⟨rfl, rfl, -, hfree⟩ | ⟨r, rfl, -⟩
      · rw [looks.claimed_of_free ((Cache.stateAt_eq entry).symm.trans hfree)]
        rfl
      · rcases eyes with rfl | rfl <;> cases looks <;> rfl
  | rise => simp [Stage.asked, Stage.arriving]
  | comes s hnone => exact absurd hnone hnext
  | tell s result outer refused => cases outer <;> rfl
  | _ => rfl

end Turn

/-! ## The order of arrival -/

/-- The position of the thread whose second request arrives with an event. -/
def arrival? (crew : Crew ν) : Event → Option Nat
  | .turn i => if (crew.members[i]?).any (·.2.arriving) then some i else none
  | .stir _ => none

/-- The position of the sleeping thread that is stirred with an event. -/
def stirred? (crew : Crew ν) : Event → Option Nat
  | .turn _ => none
  | .stir i => if crew.crowd.isAsleep (crew.first + i) then some i else none

/-- The positions that are noted at the events of a schedule. -/
def noted (note : Crew ν → Event → Option Nat) (crew : Crew ν) : List Event → List Nat
  | [] => []
  | event :: schedule => (note crew event).toList ++ noted note (crew.after event) schedule

/-- The threads whose second requests arrive, in the order of a schedule. -/
def arrivals (crew : Crew ν) (schedule : List Event) : List Nat := crew.noted arrival? schedule

/-- The threads that are stirred while they sleep, in the order of a schedule. -/
def stirred (crew : Crew ν) (schedule : List Event) : List Nat := crew.noted stirred? schedule

theorem noted_concat (note : Crew ν → Event → Option Nat) (crew : Crew ν) (schedule : List Event)
    (event : Event) : crew.noted note (schedule ++ [event]) =
      crew.noted note schedule ++ (note (crew.run schedule) event).toList := by
  induction schedule generalizing crew with
  | nil => simp [noted, run]
  | cons first schedule ih =>
      rw [List.cons_append, noted, noted, ih, List.append_assoc]
      rfl

/-- The requests that have arrived so far, in their order, and who was refused. -/
structure Ordered (n : Nat) (crew : Crew ν) (order stirred : List Nat) : Prop where
  nodup : order.Nodup
  mem : ∀ i task stage, crew.Member i task stage → (i ∈ order ↔ stage.asked = true)
  lt : ∀ i ∈ order, i < n
  length : ∀ i task stage, crew.Member i task stage → stage.wasRefused = true → order.length = n
  last : ∀ i ∉ stirred, ∀ task stage, crew.Member i task stage → stage.wasRefused = true →
    order.getLast? = some i

/-- So many different positions are all of them. -/
theorem mem_of_length_eq {order : List Nat} (hnodup : order.Nodup) (hlt : ∀ i ∈ order, i < n)
    (hlength : order.length = n) {i : Nat} (hi : i < n) : i ∈ order := by
  have hsub : order.Subperm (List.range n) :=
    hnodup.subperm fun i h => List.mem_range.mpr (hlt i h)
  have hperm : order.Perm (List.range n) := hsub.perm_of_length_le (by simp [hlength])
  exact hperm.mem_iff.mpr (List.mem_range.mpr hi)

theorem length_eq_of_mem {order : List Nat} (hnodup : order.Nodup) (hlt : ∀ i ∈ order, i < n)
    (hall : ∀ i < n, i ∈ order) : order.length = n := by
  have hle := (hnodup.subperm fun i h => List.mem_range.mpr (hlt i h)).length_le
  have hge := (List.nodup_range.subperm fun i h => hall i (List.mem_range.mp h)).length_le
  rw [List.length_range] at hle hge
  exact Nat.le_antisymm hle hge

/-- A thread whose request arrives can move. -/
theorem Sound.arrival?_eq_none (hc : crew.Sound) {i : Nat} (hsame : crew.turn i = crew) :
    crew.arrival? (.turn i) = none := by
  refine if_neg fun harrives => ?_
  obtain ⟨⟨task, stage⟩, hm, harriving⟩ := (Option.any_eq_true ..).mp harrives
  rcases hc.of_advance_eq_none hm (hc.advance_eq_none hsame hm) with
    hended | ⟨r, hsleeps, -⟩ | ⟨⟨s, rfl⟩, -⟩
  · obtain ⟨outcome, computed, refused, rfl⟩ := Stage.isEnded_iff.mp hended
    cases harriving
  · cases stage with
    | looking => cases hsleeps
    | _ => cases harriving
  · cases harriving

section

variable {order stirred : List Nat} {i : Nat} {task : Task ν} {stage stage' : Stage ν}
  {k' : Crowd ν}

theorem Member.arrival?_eq_some (hm : crew.Member i task stage) {j : Nat} :
    crew.arrival? (.turn i) = some j ↔ stage.arriving = true ∧ i = j := by
  simp [arrival?, hm.eq]

theorem mem_append_arrival {j : Nat} :
    j ∈ order ++ (crew.arrival? (.turn i)).toList ↔
      j ∈ order ∨ crew.arrival? (.turn i) = some j := by
  simp

/-- A request arrives once. -/
theorem Ordered.arrival?_eq_none (ho : Ordered n crew order stirred) (hm : crew.Member i task stage)
    (hmem : i ∈ order) : crew.arrival? (.turn i) = none := by
  refine Option.eq_none_iff_forall_ne_some.mpr fun j hj => ?_
  obtain ⟨harriving, -⟩ := hm.arrival?_eq_some.mp hj
  rw [Stage.not_arriving_of_asked ((ho.mem i task stage hm).mp hmem)] at harriving
  cases harriving

/-- After a refusal no request is left to arrive. -/
theorem Ordered.order_of_length (ho : Ordered n crew order stirred) (hm : crew.Member i task stage)
    (hi : i < n) (hlength : order.length = n) :
    order ++ (crew.arrival? (.turn i)).toList = order := by
  rw [ho.arrival?_eq_none hm (mem_of_length_eq ho.nodup ho.lt hlength hi)]
  exact List.append_nil order

theorem Ordered.nodup_append (ho : Ordered n crew order stirred) (hm : crew.Member i task stage) :
    (order ++ (crew.arrival? (.turn i)).toList).Nodup := by
  cases ha : crew.arrival? (.turn i) with
  | none => simpa using ho.nodup
  | some j =>
      obtain ⟨-, rfl⟩ := hm.arrival?_eq_some.mp ha
      have hnew : i ∉ order := fun hmem => by
        cases (ho.arrival?_eq_none hm hmem).symm.trans ha
      exact List.Nodup.append ho.nodup (List.nodup_singleton i) (by simpa using hnew)

theorem Ordered.lt_append (ho : Ordered n crew order stirred) (hm : crew.Member i task stage)
    (hi : i < n) : ∀ j ∈ order ++ (crew.arrival? (.turn i)).toList, j < n := by
  intro j hj
  rcases mem_append_arrival.mp hj with hj | ha
  · exact ho.lt j hj
  · obtain ⟨-, rfl⟩ := hm.arrival?_eq_some.mp ha
    exact hi

/-- Who has arrived after a turn is whose request had arrived before or arrives with it. -/
theorem Ordered.mem_append (ho : Ordered n crew order stirred) (hr : Ring n place value crew)
    (hm : crew.Member i task stage)
    (ha : Advances crew.crowd (crew.first + i) crew.gathered task stage stage' k') :
    i ∈ order ++ (crew.arrival? (.turn i)).toList ↔ stage'.asked = true := by
  obtain ⟨-, -, id, hid, -⟩ := hr.tasks i task stage hm
  have hasked := (hr.stages i task stage hm).asked_of_advance ha (by simp [hid])
  rw [mem_append_arrival, hm.arrival?_eq_some, ho.mem i task stage hm, hasked]
  simp

/-- When a thread is refused, all others sleep, so all requests have arrived. -/
theorem Ordered.length_append (ho : Ordered n crew order stirred) (hr : Ring n place value crew)
    (hapart : ∀ i < n, ∀ j < n, place i = place j → i = j) (hc : crew.Sound)
    (hm : crew.Member i task stage)
    (ha : Advances crew.crowd (crew.first + i) crew.gathered task stage stage' k')
    (hbefore : stage.wasRefused = false) (hrefused : stage'.wasRefused = true) :
    (order ++ (crew.arrival? (.turn i)).toList).length = n := by
  have hi : i < n := hr.size ▸ hm.lt
  refine length_eq_of_mem (ho.nodup_append hm) (ho.lt_append hm hi) fun j hj => ?_
  by_cases hne : j = i
  · exact hne ▸ (ho.mem_append hr hm ha).mpr (Stage.asked_of_wasRefused hrefused)
  · obtain ⟨task', s, r, hasleep⟩ := hr.asleep_of_refused hapart hc hm ha hbefore hrefused hj hne
    exact mem_append_arrival.mpr (Or.inl ((ho.mem j _ _ hasleep).mpr rfl))

end

theorem Ordered.turn {order stirred : List Nat} (ho : Ordered n crew order stirred)
    (hr : Ring n place value crew) (hapart : ∀ i < n, ∀ j < n, place i = place j → i = j)
    (hc : crew.Sound) (hcalm : crew.Calm stirred) (i : Nat) :
    Ordered n (crew.turn i) (order ++ (crew.arrival? (.turn i)).toList) stirred := by
  rcases turn_cases crew i with hsame | ⟨task, stage, stage', k', hm, ha, heq⟩
  · rw [hsame, hc.arrival?_eq_none hsame]
    simpa using ho
  have hi : i < n := hr.size ▸ hm.lt
  rw [heq]
  refine ⟨ho.nodup_append hm,
    forall_member_set k' hm (ho.mem_append hr hm ha) fun j task₁ stage₁ hne hj => ?_,
    ho.lt_append hm hi,
    forall_member_set k' hm (fun hrefused => ?_) fun j task₁ stage₁ hne hj hrefused => ?_,
    fun j hquiet task₁ stage₁ hj hrefused => ?_⟩
  · rw [mem_append_arrival, hm.arrival?_eq_some, ho.mem j task₁ stage₁ hj]
    simp [Ne.symm hne]
  · cases hbefore : stage.wasRefused with
    | true =>
        have hlength := ho.length i task stage hm hbefore
        rw [ho.order_of_length hm hi hlength]
        exact hlength
    | false => exact ho.length_append hr hapart hc hm ha hbefore hrefused
  · have hlength := ho.length j task₁ stage₁ hj hrefused
    rw [ho.order_of_length hm hi hlength]
    exact hlength
  · rcases (member_set k' hm).mp hj with ⟨rfl, rfl, rfl⟩ | ⟨-, hj⟩
    · cases hbefore : stage.wasRefused with
      | true =>
          rw [ho.order_of_length hm hi (ho.length j _ stage hm hbefore)]
          exact ho.last j hquiet _ stage hm hbefore
      | false =>
          have harriving := hr.arriving_of_refused hcalm hquiet hm ha hbefore hrefused
          simp [hm.arrival?_eq_some.mpr ⟨harriving, rfl⟩]
    · rw [ho.order_of_length hm hi (ho.length j _ stage₁ hj hrefused)]
      exact ho.last j hquiet _ stage₁ hj hrefused

/-! ### Stirring -/

section Stir

variable {order stirred : List Nat} (i : Nat)

theorem member_stir {j : Nat} {task : Task ν} {stage : Stage ν} :
    (crew.stir i).Member j task stage ↔ crew.Member j task stage := by
  unfold stir
  split <;> rfl

theorem Ordered.stir (ho : Ordered n crew order stirred) :
    Ordered n (crew.stir i) order (stirred ++ (crew.stirred? (.stir i)).toList) where
  nodup := ho.nodup
  mem j task stage hm := ho.mem j task stage ((member_stir i).mp hm)
  lt := ho.lt
  length j task stage hm := ho.length j task stage ((member_stir i).mp hm)
  last j hquiet task stage hm :=
    ho.last j (fun h => hquiet (List.mem_append_left _ h)) task stage ((member_stir i).mp hm)

/-- Nobody is told to look again but the thread that is stirred. -/
theorem Calm.stir (hcalm : crew.Calm stirred) :
    (crew.stir i).Calm (stirred ++ (crew.stirred? (.stir i)).toList) := by
  by_cases hasleep : crew.crowd.isAsleep (crew.first + i) = true
  · rw [show crew.stirred? (.stir i) = some i from if_pos hasleep, Crew.stir, if_pos hasleep]
    refine ⟨fun j hquiet => ?_, fun j hquiet task s r hm hwoken => ?_⟩
    · exact hcalm.awake j fun h => hquiet (List.mem_append_left _ h)
    · obtain ⟨hquiet, hne⟩ : j ∉ stirred ∧ j ≠ i := by simpa using hquiet
      refine hcalm.woken j hquiet task s r hm ((List.mem_cons.mp hwoken).resolve_left fun h => ?_)
      exact hne (Nat.add_left_cancel h)
  · rw [show crew.stirred? (.stir i) = none from if_neg hasleep, Crew.stir, if_neg hasleep]
    simpa using hcalm

end Stir

/-! ## The ring law -/

section Assembled

variable {c : Cache ν} (hc : c.Idle) {ids : List Identity} (hapart : (ids.map (·.location)).Nodup)
  (hnew : ∀ id ∈ ids, c.peek id.location = none) (value : Nat → ν) (first : Thread)

include hc hapart hnew in
theorem ordered_run (schedule : List Event) :
    ((assemble c first (ring value ids)).run schedule).Calm
        ((assemble c first (ring value ids)).stirred schedule) ∧
      Ordered ids.length ((assemble c first (ring value ids)).run schedule)
        ((assemble c first (ring value ids)).arrivals schedule)
        ((assemble c first (ring value ids)).stirred schedule) := by
  induction schedule using List.reverseRecOn with
  | nil =>
      have hready : ∀ i task stage,
          (assemble c first (ring value ids)).Member i task stage → stage = .ready := by
        intro i task stage hm
        obtain ⟨task', -, heq⟩ :=
          Option.map_eq_some_iff.mp ((List.getElem?_map ..).symm.trans hm.eq)
        cases heq
        rfl
      refine ⟨⟨fun i _ task s r hm => ?_, fun i _ task s r hm => ?_⟩,
        List.nodup_nil, fun i task stage hm => ?_, nofun, fun i task stage hm h => ?_,
        fun i _ task stage hm h => ?_⟩
      · cases hready i task _ hm
      · cases hready i task _ hm
      · rw [hready i task stage hm]
        exact ⟨nofun, nofun⟩
      · rw [hready i task stage hm] at h
        cases h
      · rw [hready i task stage hm] at h
        cases h
  | append_singleton schedule event ih =>
      obtain ⟨hcalm, ho⟩ := ih
      have hr := Ring.run hc hapart hnew value first schedule
      have hs := (Sound.assemble hc first (ring value ids)).run schedule
      rw [run_append, arrivals, stirred, noted_concat, noted_concat]
      cases event with
      | turn i =>
          rw [show stirred? _ (.turn i) = none from rfl, Option.toList_none, List.append_nil]
          refine ⟨?_, ho.turn hr (placeOf_inj hapart) hs hcalm i⟩
          show Calm (turn _ i) _
          rcases turn_cases ((assemble c first (ring value ids)).run schedule) i with
            hsame | ⟨task, stage, stage', k', hm, ha, heq⟩
          · rw [hsame]
            exact hcalm
          · rw [heq]
            exact hr.calm_turn hs hcalm hm ha
      | stir i =>
          rw [show arrival? _ (.stir i) = none from rfl, Option.toList_none, List.append_nil]
          exact ⟨hcalm.stir i, ho.stir i⟩

end Assembled

/-- **The ring law.** Let each thread of a crew compute a file of its own, and ask for the file of
the next thread once all have started, at a cache where nobody waits, nothing is in progress and
none of the files is computed. Then after every schedule:

* No two threads were refused. Whoever was refused was so after all requests had arrived, and its
  own was the last of them, unless the thread was stirred.
* If nobody was stirred, a thread was refused if and only if all requests have arrived, and its own
  as the last.
* Whoever is done has the value of its own supplier, which the cache holds.
* If everybody then has a turn in each of enough rounds, all are done, and one was refused. -/
theorem ring_law {c : Cache ν} (hc : c.Idle) {ids : List Identity} (hids : ids ≠ [])
    (hapart : (ids.map (·.location)).Nodup) (hnew : ∀ id ∈ ids, c.peek id.location = none)
    (value : Nat → ν) (first : Thread) (schedule : List Event) :
    let start := assemble c first (ring value ids)
    let crew := start.run schedule
    let order := start.arrivals schedule
    order.Nodup ∧
    (∀ i j task task' stage stage', crew.Member i task stage → crew.Member j task' stage' →
      stage.wasRefused = true → stage'.wasRefused = true → i = j) ∧
    (∀ i task stage, crew.Member i task stage → stage.wasRefused = true →
      order.length = ids.length ∧ (order.getLast? = some i ∨ i ∈ start.stirred schedule)) ∧
    (start.stirred schedule = [] → ∀ i task stage, crew.Member i task stage →
      (stage.wasRefused = true ↔ order.length = ids.length ∧ order.getLast? = some i)) ∧
    (∀ i task outcome computed refused,
      crew.Member i task (.ended outcome computed refused) →
      outcome = .value (value i) ∧ computed = true ∧
        crew.crowd.cache.peek (placeOf ids i) = some (value i)) ∧
    ∀ rounds : List (List Nat), (∀ round ∈ rounds, ∀ i < ids.length, i ∈ round) →
      patience ids.length ≤ rounds.length →
      (∀ i < ids.length, ∃ task refused, (crew.run (rounds.flatten.map .turn)).Member i task
        (.ended (.value (value i)) true refused)) ∧
      ∃ i task stage, (crew.run (rounds.flatten.map .turn)).Member i task stage ∧
        stage.wasRefused = true := by
  intro start crew order
  have hn : 0 < ids.length := List.length_pos_iff.mpr hids
  have hr : Ring ids.length (placeOf ids) value crew := .run hc hapart hnew value first schedule
  have hs : crew.Sound := (Sound.assemble hc first _).run schedule
  obtain ⟨hcalm, ho⟩ : crew.Calm (start.stirred schedule) ∧
      Ordered ids.length crew order (start.stirred schedule) :=
    ordered_run hc hapart hnew value first schedule
  refine ⟨ho.nodup, hr.unique, fun i task stage hm hrefused => ?_, fun hquiet i task stage hm => ?_,
    fun i task outcome computed refused hm => ?_, fun rounds hall henough => ?_⟩
  · refine ⟨ho.length i task stage hm hrefused, ?_⟩
    by_cases hmem : i ∈ start.stirred schedule
    · exact Or.inr hmem
    · exact Or.inl (ho.last i hmem task stage hm hrefused)
  · rw [hquiet] at hcalm ho
    refine ⟨fun hrefused => ⟨ho.length i task stage hm hrefused,
      ho.last i List.not_mem_nil task stage hm hrefused⟩, fun ⟨hlength, hlast⟩ => ?_⟩
    -- all have arrived, so somebody was refused, and that can only be the last
    have hall : ∀ i task stage, crew.Member i task stage → stage.asked = true :=
      fun i task stage hm => (ho.mem i task stage hm).mp
        (mem_of_length_eq ho.nodup ho.lt hlength (hr.size ▸ hm.lt))
    obtain ⟨j, task', stage', hm', hrefused⟩ := hr.refused_of_all_asked hs hcalm hn hall
    have hlast' := ho.last j List.not_mem_nil task' stage' hm' hrefused
    obtain rfl := Option.some.inj (hlast.symm.trans hlast')
    cases Option.some.inj (hm.eq.symm.trans hm'.eq)
    exact hrefused
  · cases hr.stages i task _ hm with
    | ended s _ file kept => exact ⟨rfl, rfl, Cache.peek_of_stateAt file kept⟩
  · have hlater : Ring ids.length (placeOf ids) value (crew.run (rounds.flatten.map .turn)) := by
      show Ring _ _ _ ((Crew.run _ schedule).run _)
      rw [← run_append]
      exact .run hc hapart hnew value first _
    rw [← hr.size] at hall henough
    exact hlater.ended_of_rest (hs.run _) hn
      (hs.atRest_of_rounds hall (Nat.le_trans hs.rank_le henough))

def twoFiles : List Identity := [⟨⟨["a.fsproj"]⟩, .project⟩, ⟨⟨["b.fsproj"]⟩, .project⟩]

/-- Two threads, of which the second asks for the other file first. -/
def crossing : List Event := [0, 0, 1, 1, 1, 1, 0, 0].map .turn

/-- The first thread is refused the file of the second. -/
theorem ring_law_crossing : (Cache.empty : Cache Nat).Idle ∧ twoFiles ≠ [] ∧
    (twoFiles.map (·.location)).Nodup ∧
    (∀ id ∈ twoFiles, (Cache.empty : Cache Nat).peek id.location = none) ∧
    ∃ task stage, ((assemble .empty 1 (ring id twoFiles)).run crossing).Member 0 task stage ∧
      stage.wasRefused = true := by
  have hidle : (Cache.empty : Cache Nat).Idle := ⟨rfl, fun _ => rfl⟩
  have hids : twoFiles ≠ [] := by decide
  have hapart : (twoFiles.map (·.location)).Nodup := by decide
  have hnew : ∀ id ∈ twoFiles, (Cache.empty : Cache Nat).peek id.location = none := fun _ _ => rfl
  refine ⟨hidle, hids, hapart, hnew, _, _, rfl, ?_⟩
  obtain ⟨-, -, -, hlast, -⟩ := ring_law hidle hids hapart hnew id 1 crossing
  exact (hlast (by decide) 0 _ _ rfl).mpr (by decide)

/-- Two threads to their end. The first one asks first and sleeps, is stirred, and looks again only
after the second has gone to sleep as well. -/
def stirring : List Event :=
  [0, 0, 1, 1, 0, 0].map .turn ++ [.stir 0] ++ [0, 1, 1, 0, 0, 0, 0, 1, 1, 1, 1, 1].map .turn

/-- A thread that computes a file whose entry is dropped meanwhile, and then asks for it. -/
def dropping : List Cache.Op :=
  [.get ⟨⟨["a.fsproj"]⟩, .project⟩ "own" [.invalidate ⟨["a.fsproj"]⟩,
    .get ⟨⟨["a.fsproj"]⟩, .project⟩ "new" [] [] false false] [] false false]

/-- A thread that was stirred is refused though it was not the last to arrive, and a ring of one
thread, whose entry is dropped before it asks for it, has nobody who is refused. -/
theorem ring_law_disturbed :
    ((assemble .empty 1 (ring id twoFiles)).arrivals stirring = [0, 1] ∧
      ∃ task task', ((assemble .empty 1 (ring id twoFiles)).run stirring).members =
        [(task, .ended (.value 0) true true), (task', .ended (.value 1) true false)]) ∧
    Cache.answers dropping =
      [.got (.value "own") 2 [.flag true, .got (.value "new") 2 []]] := by
  refine ⟨⟨by decide, _, _, rfl⟩, rfl⟩

end Crew

end FSharpWorkspace
