import FSharpWorkspace.Proofs.Threads.Crews
import Mathlib.Algebra.Group.Action.Defs
import Mathlib.Algebra.Order.BigOperators.Group.Finset
import Mathlib.Data.Fintype.Card
import Mathlib.Data.Fintype.EquivFin
/-!
# Every crew comes to rest

If everybody has a turn again and again, a crew comes to rest: nobody can move. `Crew.rank` counts
what is left to do. A thread that goes to sleep and looks again goes round in a circle, and each
time somebody told it to. So the rank charges a thread that was told to look again two units, and
whoever still has to tell puts aside two units for every thread. A turn that is a move then lowers
the rank (`Sound.turn_lt`), and `Crew.patience` bounds the rank from the beginning.

At rest nobody sleeps. A sleeper that nobody told waits for an owner, and this owner does not move
either, so it sleeps too; the waits would go round in a circle (`Sound.ended_of_rest`).
-/

set_option autoImplicit false

namespace FSharpWorkspace

open Relation

/-! ## What is left to do -/

/-- How much a thread has left to do in a crew of the given size, apart from looking again. -/
def Stage.weight {ν : Type} (size : Nat) : Stage ν → Nat
  | ready => 4 * size + 12
  | looking none _ => 4 * size + 11
  | awake none _ => 4 * size + 11
  | asleep none _ => 4 * size + 10
  | computing _ => 4 * size + 9
  | looking (some _) _ => 4 * size + 8
  | awake (some _) _ => 4 * size + 8
  | asleep (some _) _ => 4 * size + 7
  | closing .leave _ _ outer _ => 2 * size + 3 + outer.elim 0 fun _ => 2 * size + 3
  | closing .write _ _ outer _ => 2 * size + 2 + outer.elim 0 fun _ => 2 * size + 3
  | closing .tell _ _ outer _ => 2 * size + 1 + outer.elim 0 fun _ => 2 * size + 3
  | ended _ _ _ => 0

/-- What a thread is charged for having been told to look again. -/
def Crowd.charge {ν : Type} (k : Crowd ν) (t : Thread) : Nat := if t ∈ k.woken then 2 else 0

theorem Crowd.charge_le {ν : Type} (k : Crowd ν) (t : Thread) : k.charge t ≤ 2 := by
  unfold charge
  split <;> omega

theorem Crowd.charge_mono {ν : Type} {k k' : Crowd ν} {t : Thread}
    (h : t ∈ k'.woken → t ∈ k.woken) :
    k'.charge t ≤ k.charge t := by
  unfold charge
  split
  · rename_i hmem
    rw [if_pos (h hmem)]
  · exact Nat.zero_le _

namespace Crew

variable {ν : Type}

section Turn

variable {k k' : Crowd ν} {t : Thread} {gathered : Bool} {task : Task ν} {stage stage' : Stage ν}

theorem Advances.woken_subset (h : Advances k t gathered task stage stage' k') (hk : k.Sound)
    (ht : stage.tells = none) {u : Thread} (hu : u ∈ k'.woken) : u ∈ k.woken := by
  rcases h.woken_cases hk hu with hold | ⟨s, hs, -⟩
  · exact hold
  · cases ht.symm.trans hs

theorem weight_answered (task : Task ν) (size : Nat) (inside : Option Serial) (answer : Request ν)
    (s : Serial) :
    (answered task inside answer).weight size < (Stage.looking inside s : Stage ν).weight size := by
  cases answer <;> cases inside <;> simp only [answered, Stage.weight, Option.elim] <;> omega

theorem weight_closed (size : Nat) (s : Serial) (result : Option ν) (outer : Option Serial)
    (refused : Bool) :
    (closed task result refused outer).weight size + 2 * size <
      (Stage.closing .tell s result outer refused).weight size := by
  cases outer <;> simp only [closed, Stage.weight, Option.elim] <;> omega

/-- A move of somebody who is not about to tell. -/
theorem Advances.weight_lt (h : Advances k t gathered task stage stage' k') (hk : k.Sound)
    (ht : stage.tells = none) (size : Nat) :
    stage'.weight size + k'.charge t < stage.weight size + k.charge t := by
  have hcharge : k'.charge t ≤ k.charge t := Crowd.charge_mono (h.woken_subset hk ht)
  cases h with
  | find | comes | asks =>
      simp only [Stage.weight, Option.elim]
      omega
  | @look _ inside s _ answer _ eyes =>
      have hlt := weight_answered task size inside answer s
      have heyes : stage.weight size = (Stage.looking inside s : Stage ν).weight size := by
        rcases eyes with rfl | rfl
        · rfl
        · cases inside <;> rfl
      omega
  | rise inside s h =>
      obtain ⟨⟨-, hwoken⟩, rfl⟩ := Crowd.rise_eq_some.mp h
      have hbefore : k.charge t = 2 := if_pos hwoken
      have hafter : Crowd.charge { k with
          cache := { k.cache with waits := k.cache.waits.wake t }
          woken := k.woken.filter (· ≠ t) } t = 0 := if_neg (by simp)
      rw [hbefore, hafter]
      cases inside <;> simp only [Stage.weight] <;> omega
  | leave | write =>
      simp only [Stage.weight]
      omega
  | tell => cases ht

/-- A move of somebody who tells. -/
theorem Advances.weight_lt_of_tells (h : Advances k t gathered task stage stage' k') {s : Serial}
    (ht : stage.tells = some s) (size : Nat) :
    stage'.weight size + 2 * size < stage.weight size := by
  cases h with
  | look inside s eyes => rcases eyes with rfl | rfl <;> cases ht
  | tell s result outer refused => exact weight_closed size s result outer refused
  | _ => cases ht

end Turn

def burden (crew : Crew ν) (i : Nat) : Nat :=
  (crew.stageOf (crew.first + i)).weight crew.members.length + crew.crowd.charge (crew.first + i)

def rank (crew : Crew ν) : Nat := ∑ i ∈ Finset.range crew.members.length, crew.burden i

/-- One loses what all the others can gain. -/
theorem sum_lt_of_loss {n i : Nat} {f g : Nat → Nat} (hi : i < n) (hothers : ∀ j ≠ i, g j ≤ f j + 2)
    (hself : g i + 2 * n < f i + 2) : ∑ j ∈ Finset.range n, g j < ∑ j ∈ Finset.range n, f j := by
  have hmem : i ∈ Finset.range n := Finset.mem_range.mpr hi
  have hrest : ∑ j ∈ (Finset.range n).erase i,
      g j ≤ ∑ j ∈ (Finset.range n).erase i, f j + (n - 1) * 2 := by
    calc ∑ j ∈ (Finset.range n).erase i, g j
        ≤ ∑ j ∈ (Finset.range n).erase i, (f j + 2) :=
          Finset.sum_le_sum fun j hj => hothers j (Finset.ne_of_mem_erase hj)
      _ = ∑ j ∈ (Finset.range n).erase i, f j + (n - 1) * 2 := by
          rw [Finset.sum_add_distrib, Finset.sum_const, Finset.card_erase_of_mem hmem,
            Finset.card_range, smul_eq_mul]
  have hf := Finset.add_sum_erase _ f hmem
  have hg := Finset.add_sum_erase _ g hmem
  omega

variable {crew : Crew ν}

theorem length_turn (crew : Crew ν) (i : Nat) :
    (crew.turn i).members.length = crew.members.length := by
  rcases turn_cases crew i with hsame | ⟨task, stage, stage', k', -, -, hturn⟩
  · rw [hsame]
  · simp [hturn]

/-- A turn that is a move brings the crew closer to rest. -/
theorem Sound.rank_lt (hc : crew.Sound) {i : Nat} {task : Task ν} {stage stage' : Stage ν}
    {k' : Crowd ν} (hm : crew.Member i task stage)
    (ha : Advances crew.crowd (crew.first + i) crew.gathered task stage stage' k') :
    rank { crew with crowd := k', members := crew.members.set i (task, stage') } < crew.rank := by
  have hi : i < crew.members.length := hm.lt
  have hstage := stageOf_eq hm
  have hself : burden { crew with crowd := k', members := crew.members.set i (task, stage') } i =
      stage'.weight crew.members.length + k'.charge (crew.first + i) := by
    unfold burden
    rw [stageOf_set k' hm, if_pos rfl, List.length_set]
  have hother : ∀ j ≠ i,
    burden { crew with crowd := k', members := crew.members.set i (task, stage') } j =
      (crew.stageOf (crew.first + j)).weight crew.members.length + k'.charge (crew.first + j) := by
    intro j hj
    unfold burden
    rw [stageOf_set k' hm, if_neg (fun h => hj (Nat.add_left_cancel h)), List.length_set]
  unfold rank
  rw [List.length_set]
  cases ht : stage.tells with
  | none =>
      -- nobody is told to look again: its own burden falls, and nobody else's grows
      have hlt := ha.weight_lt hc.crowd ht crew.members.length
      rw [← hstage] at hlt
      refine Finset.sum_lt_sum (fun j _ => ?_) ⟨i, Finset.mem_range.mpr hi, ?_⟩
      · by_cases hj : j = i
        · subst hj
          rw [hself]
          exact Nat.le_of_lt hlt
        · rw [hother j hj]
          exact Nat.add_le_add_left (Crowd.charge_mono (ha.woken_subset hc.crowd ht)) _
      · rw [hself]
        exact hlt
  | some s =>
      -- each thread may be charged two now, which the fall of the weight of who tells outdoes
      have hlt := ha.weight_lt_of_tells ht crew.members.length
      rw [← hstage] at hlt
      refine sum_lt_of_loss hi (fun j hj => ?_) ?_
      · have := k'.charge_le (crew.first + j)
        rw [hother j hj]
        unfold burden
        omega
      · have := k'.charge_le (crew.first + i)
        rw [hself]
        unfold burden
        omega

theorem Sound.turn_eq_or_lt (hc : crew.Sound) (i : Nat) :
    crew.turn i = crew ∨ (crew.turn i).rank < crew.rank := by
  rcases turn_cases crew i with hsame | ⟨task, stage, stage', k', hm, ha, hturn⟩
  · exact Or.inl hsame
  · rw [hturn]
    exact Or.inr (hc.rank_lt hm ha)

/-- There is never more to do than in the beginning. -/
theorem Sound.rank_le (hc : crew.Sound) : crew.rank ≤ patience crew.members.length := by
  have hburden : ∀ i ∈ Finset.range crew.members.length,
      crew.burden i ≤ 4 * crew.members.length + 12 := by
    intro i _
    unfold burden Crowd.charge
    split
    · -- who was told to look again sleeps
      rename_i hwoken
      have hasleep := hc.woken _ hwoken
      unfold Crowd.isAsleep at hasleep
      rw [(hc.does _).sleeps] at hasleep
      cases hs : crew.stageOf (crew.first + i) with
      | asleep inside s => cases inside <;> simp only [Stage.weight] <;> omega
      | _ => rw [hs] at hasleep; cases hasleep
    · cases crew.stageOf (crew.first + i) with
      | looking inside s | asleep inside s | awake inside s =>
          cases inside <;> simp only [Stage.weight] <;> omega
      | closing step s result outer refused =>
          cases step <;> cases outer <;> simp only [Stage.weight, Option.elim] <;> omega
      | _ => simp only [Stage.weight]; omega
  calc crew.rank ≤ (Finset.range crew.members.length).card • (4 * crew.members.length + 12) :=
        Finset.sum_le_card_nsmul _ _ _ hburden
    _ = patience crew.members.length := by rw [Finset.card_range, smul_eq_mul]; rfl

/-! ## Rounds -/

def AtRest (crew : Crew ν) : Prop := ∀ i, crew.turn i = crew

theorem run_of_still {round : List Nat} (h : ∀ i ∈ round, crew.turn i = crew) :
    crew.run (round.map .turn) = crew := by
  induction round with
  | nil => rfl
  | cons i round ih =>
      have hi : crew.after (.turn i) = crew := h i List.mem_cons_self
      rw [List.map_cons, run_cons, hi]
      exact ih fun j hj => h j (List.mem_cons_of_mem _ hj)

/-- After a round in which something happened there is less to do. -/
theorem Sound.round_lt (hc : crew.Sound) (round : List Nat) :
    (∀ i ∈ round, crew.turn i = crew) ∨ (crew.run (round.map .turn)).rank < crew.rank := by
  induction round generalizing crew with
  | nil => exact Or.inl fun i hi => by cases hi
  | cons i round ih =>
      rw [List.map_cons, run_cons]
      show _ ∨ ((crew.turn i).run _).rank < _
      rcases hc.turn_eq_or_lt i with hsame | hlt
      · rw [hsame]
        rcases ih hc with hstill | hlt
        · exact Or.inl (List.forall_mem_cons.mpr ⟨hsame, hstill⟩)
        · exact Or.inr hlt
      · right
        rcases ih (hc.turn i) with hstill | hlt'
        · rw [run_of_still hstill]
          exact hlt
        · exact Nat.lt_trans hlt' hlt

theorem length_run_turns (crew : Crew ν) (round : List Nat) :
    (crew.run (round.map .turn)).members.length = crew.members.length := by
  induction round generalizing crew with
  | nil => rfl
  | cons i round ih => exact (ih (crew.turn i)).trans (length_turn crew i)

/-- If everybody has a turn in every round, the crew is at rest after as many rounds
as there is to do. -/
theorem Sound.atRest_of_rounds (hc : crew.Sound) {rounds : List (List Nat)}
    (hall : ∀ round ∈ rounds, ∀ i < crew.members.length, i ∈ round)
    (hrank : crew.rank ≤ rounds.length) :
    (crew.run (rounds.flatten.map .turn)).AtRest := by
  induction rounds generalizing crew with
  | nil =>
      intro i
      rcases hc.turn_eq_or_lt i with hsame | hlt
      · exact hsame
      · exact absurd (Nat.lt_of_lt_of_le hlt hrank) (Nat.not_lt_zero _)
  | cons round rounds ih =>
      rw [List.flatten_cons, List.map_append, run_append]
      rcases hc.round_lt round with hstill | hlt
      · -- nothing happened in a round in which everybody had a turn
        have hrest : crew.AtRest := by
          intro i
          by_cases hi : i < crew.members.length
          · exact hstill i (hall round List.mem_cons_self i hi)
          · simp [Crew.turn, List.getElem?_eq_none_iff.mpr (Nat.not_lt.mp hi)]
        rw [run_of_still hstill, run_of_still fun i _ => hrest i]
        exact hrest
      · refine ih (hc.run _) (fun r hr i hi => ?_) ?_
        · rw [length_run_turns] at hi
          exact hall r (List.mem_cons_of_mem _ hr) i hi
        · exact Nat.le_of_lt_succ (Nat.lt_of_lt_of_le hlt hrank)

/-! ## At rest -/

/-- Finitely many threads do not all wait for one another if nobody waits in a circle. -/
theorem not_all_wait {r : Thread → Thread → Prop} (hr : ∀ t, ¬ TransGen r t t) {first n : Nat}
    {waits : Nat → Prop}
    (hnext : ∀ i < n, waits i → ∃ j < n, waits j ∧ r (first + i) (first + j)) :
    ∀ i < n, ¬ waits i := by
  let follows : Fin n → Fin n → Prop := fun j i => TransGen r (first + i.val) (first + j.val)
  have : IsTrans _ follows := ⟨fun _ _ _ hab hbc => hbc.trans hab⟩
  have : Std.Irrefl follows := ⟨fun i => hr _⟩
  have hwf : WellFounded follows := Finite.wellFounded_of_trans_of_irrefl follows
  intro i hi hwaits
  -- somebody who waits has nobody after it
  obtain ⟨m, hm, hlast⟩ := hwf.has_min {i | waits i.val} ⟨⟨i, hi⟩, hwaits⟩
  obtain ⟨j, hj, hjwaits, hstep⟩ := hnext m.val m.isLt hm
  exact hlast ⟨j, hj⟩ hjwaits (.single hstep)

theorem Sound.advance_eq_none (hc : crew.Sound) {i : Nat} {task : Task ν} {stage : Stage ν}
    (hrest : crew.turn i = crew) (hm : crew.Member i task stage) :
    advance crew.crowd (crew.first + i) crew.gathered task stage = none := by
  cases ha : advance crew.crowd (crew.first + i) crew.gathered task stage with
  | none => rfl
  | some next =>
      -- a move would have lowered the rank
      have hturn : crew.turn i =
          { crew with crowd := next.2, members := crew.members.set i (task, next.1) } := by
        simp only [Crew.turn, hm.eq, ha]
      have hlt := hc.rank_lt hm (advances ha)
      rw [← hturn, hrest] at hlt
      exact absurd hlt (Nat.lt_irrefl _)

/-- Who cannot move is done, or sleeps and was not told to look again, or waits for
the others to start. -/
theorem Sound.of_advance_eq_none (hc : crew.Sound) {i : Nat} {task : Task ν} {stage : Stage ν}
    (hm : crew.Member i task stage)
    (hnone : advance crew.crowd (crew.first + i) crew.gathered task stage = none) :
    stage.isEnded = true ∨ (∃ s, stage.sleepsAt = some s ∧ crew.first + i ∉ crew.crowd.woken) ∨
      ((∃ s, stage = .computing s) ∧ task.next ≠ none ∧ crew.gathered = false) := by
  have hstage := stageOf_eq hm
  have hd := hc.does (crew.first + i)
  have hmade := hc.made (crew.first + i)
  rw [hstage] at hd hmade
  have hlook : ∀ s, s < crew.crowd.cache.entries.length →
    stage.leaves = none → stage.sleepsAt = none →
      crew.crowd.look (crew.first + i) s ≠ none := by
    intro s hs hl hsl heq
    obtain ⟨answer, k', hsome, -⟩ :=
      Crowd.exists_look (hd.isFree hl hsl) (List.getElem?_eq_getElem hs)
    cases heq.symm.trans hsome
  cases stage with
  | ready => cases hnone
  | looking inside s | awake inside s =>
      exact absurd (Option.map_eq_none_iff.mp hnone) (hlook s (hmade s rfl) rfl rfl)
  | asleep inside s =>
      refine Or.inr (Or.inl ⟨s, rfl, fun hwoken => ?_⟩)
      have hrise := Option.map_eq_none_iff.mp hnone
      simp [Crowd.rise, hc.woken _ hwoken, hwoken] at hrise
  | computing s =>
      refine Or.inr (Or.inr ⟨⟨s, rfl⟩, ?_⟩)
      simp only [advance] at hnone
      split at hnone
      · cases hnone
      · rename_i id hnext
        refine ⟨by simp [hnext], ?_⟩
        by_contra hgathered
        simp [hgathered] at hnone
  | closing step s result outer refused =>
      exfalso
      cases step with
      | leave =>
          have howner := (hd.owns s).mpr List.mem_cons_self
          simp [advance, Crowd.leave, hd.isFree rfl rfl, howner] at hnone
      | write =>
          have hleaving := (hd.leaves s).mpr rfl
          simp [advance, Crowd.write, hleaving] at hnone
      | tell => cases hnone
  | ended => exact Or.inl rfl

/-- At rest nobody sleeps, and nobody is in the middle of something, unless the
others have not started. -/
theorem Sound.ended_of_rest (hc : crew.Sound) (hrest : crew.AtRest)
    (hgo : crew.gathered = true ∨ ∀ member ∈ crew.members, member.1.next = none) :
    ∀ i task stage, crew.Member i task stage → stage.isEnded = true := by
  -- who is not done sleeps, and nobody has told it to look again
  have hcases : ∀ i task stage, crew.Member i task stage → stage.isEnded = true ∨
      ∃ s, stage.sleepsAt = some s ∧ crew.first + i ∉ crew.crowd.woken := by
    intro i task stage hm
    rcases hc.of_advance_eq_none hm (hc.advance_eq_none (hrest i) hm)
      with h | h | ⟨-, hnext, hgathered⟩
    · exact Or.inl h
    · exact Or.inr h
    · rcases hgo with hgo | hgo
      · rw [hgathered] at hgo
        cases hgo
      · exact absurd (hgo _ (List.mem_of_getElem? hm)) hnext
  let pending : Nat → Prop :=
    fun i => ∃ task stage, crew.Member i task stage ∧ stage.isEnded = false
  -- so it waits for somebody else who sleeps
  have hnext : ∀ i, pending i → ∃ j < crew.members.length, pending j ∧
      crew.crowd.WaitsFor (crew.first + i) (crew.first + j) := by
    rintro i ⟨task, stage, hm, hnot⟩
    rcases hcases i task stage hm with h | ⟨s, hs, hwoken⟩
    · rw [h] at hnot
      cases hnot
    have hstage := stageOf_eq hm
    have hsleeps := (hc.does (crew.first + i)).sleeps
    rw [hstage] at hsleeps
    rcases hc.told (crew.first + i) s (hstage ▸ hs) with h | ⟨u, hu⟩ | ⟨u, hu⟩
    · exact absurd h hwoken
    · obtain ⟨j, task', stage', rfl, hj, hmem⟩ := hc.owner_member hu
      exact ⟨j, hj.lt, ⟨task', stage', hj, Stage.not_ended_of_computes hmem⟩,
        s, hsleeps.trans hs, hu⟩
    · obtain ⟨j, task', rfl, hj⟩ := exists_member (Stage.ne_ready_of_tells hu)
      obtain ⟨hnotended, hawake⟩ := Stage.not_ended_of_tells hu
      rcases hcases j task' _ hj with h | ⟨r, hr, -⟩
      · exact absurd h (by simp [hnotended])
      · exact absurd hr (by simp [hawake])
  intro i task stage hm
  by_contra hnot
  exact not_all_wait hc.crowd.not_waitsFor_self (fun i _ => hnext i) i hm.lt
    ⟨task, stage, hm, Bool.not_eq_true _ ▸ hnot⟩

/-- Whatever has happened before: after enough rounds in which everybody has a turn,
everybody is done. -/
theorem Sound.ended_of_rounds (hc : crew.Sound) {rounds : List (List Nat)}
    (hall : ∀ round ∈ rounds, ∀ i < crew.members.length, i ∈ round)
    (henough : patience crew.members.length ≤ rounds.length)
    (hgo : (crew.run (rounds.flatten.map .turn)).gathered = true ∨
      ∀ member ∈ (crew.run (rounds.flatten.map .turn)).members, member.1.next = none) :
    ∀ i task stage,
      (crew.run (rounds.flatten.map .turn)).Member i task stage → stage.isEnded = true :=
  (hc.run _).ended_of_rest (hc.atRest_of_rounds hall (Nat.le_trans hc.rank_le henough)) hgo

end Crew

end FSharpWorkspace
