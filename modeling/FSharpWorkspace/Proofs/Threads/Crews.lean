import FSharpWorkspace.Proofs.Threads.Turns
/-!
# A crew between two events

`Crew.Sound` holds between any two events of a schedule, whichever threads take turns and whoever is
stirred. The cache and the stages agree on every thread, and no wake-up is lost: who sleeps at an
entry has been told to look again, or the entry is in progress, or somebody is about to tell. An
entry becomes free only when its owner writes into it, and the next move of the owner is to tell.
-/

set_option autoImplicit false

namespace FSharpWorkspace

open Relation

def Cache.Idle {ν : Type} (c : Cache ν) : Prop := c.waits = .empty ∧ ∀ s, c.ownerAt s = none

namespace Crew

variable {ν : Type}

def Member (crew : Crew ν) (i : Nat) (task : Task ν) (stage : Stage ν) : Prop :=
  crew.members[i]? = some (task, stage)

theorem Member.eq {crew : Crew ν} {i : Nat} {task : Task ν} {stage : Stage ν}
    (h : crew.Member i task stage) :
    crew.members[i]? = some (task, stage) := h

theorem Member.lt {crew : Crew ν} {i : Nat} {task : Task ν} {stage : Stage ν}
    (h : crew.Member i task stage) :
    i < crew.members.length := (List.getElem?_eq_some_iff.mp h).1

/-- The stage of a thread. Who is not in the crew does nothing. -/
def stageOf (crew : Crew ν) (t : Thread) : Stage ν :=
  if crew.first ≤ t then (crew.members[t - crew.first]?).elim .ready (·.2) else .ready

theorem stageOf_eq {crew : Crew ν} {i : Nat} {task : Task ν} {stage : Stage ν}
    (h : crew.Member i task stage) : crew.stageOf (crew.first + i) = stage := by
  simp [stageOf, h.eq]

/-- Who does something is in the crew. -/
theorem exists_member {crew : Crew ν} {t : Thread} (h : crew.stageOf t ≠ .ready) :
    ∃ i task, t = crew.first + i ∧ crew.Member i task (crew.stageOf t) := by
  unfold stageOf at h ⊢
  split at h
  · rename_i hle
    cases hm : crew.members[t - crew.first]? with
    | none => simp [hm] at h
    | some member =>
        refine ⟨t - crew.first, member.1, (Nat.add_sub_cancel' hle).symm, ?_⟩
        simp [Member, hle, hm]
  · exact absurd rfl h

/-- The crew after the member at position `i` made a move. -/
theorem stageOf_set {crew : Crew ν} {i : Nat} {task : Task ν} {stage stage' : Stage ν}
    (crowd : Crowd ν) (h : crew.Member i task stage) (t : Thread) :
    stageOf { crew with crowd, members := crew.members.set i (task, stage') } t =
      if t = crew.first + i then stage' else crew.stageOf t := by
  have hlen := h.lt
  unfold stageOf
  by_cases hle : crew.first ≤ t
  · simp only [if_pos hle]
    by_cases ht : t = crew.first + i
    · subst ht
      simp [hlen]
    · have hne : i ≠ t - crew.first := fun hi => ht (hi ▸ (Nat.add_sub_cancel' hle).symm)
      rw [if_neg ht, List.getElem?_set_ne hne]
  · have ht : t ≠ crew.first + i := fun ht => hle (ht ▸ Nat.le_add_right crew.first i)
    rw [if_neg hle, if_neg hle, if_neg ht]

theorem member_set {crew : Crew ν} {i j : Nat} {task task' : Task ν} {stage stage' next : Stage ν}
    (crowd : Crowd ν) (h : crew.Member i task stage) :
    Member { crew with crowd, members := crew.members.set i (task, next) } j task' stage' ↔
      (j = i ∧ task' = task ∧ stage' = next) ∨ (j ≠ i ∧ crew.Member j task' stage') := by
  have hlen := h.lt
  unfold Member
  by_cases hj : j = i
  · subst hj
    simp [List.getElem?_set_self hlen, eq_comm]
  · simp [List.getElem?_set_ne (Ne.symm hj), hj]

section

variable {crew : Crew ν} {i : Nat} {task : Task ν} {stage next : Stage ν}

/-- After a move, something holds of all threads if it holds of the one that moved and of
the others before. -/
theorem forall_member_set {P : Nat → Task ν → Stage ν → Prop} (crowd : Crowd ν)
    (h : crew.Member i task stage) (hself : P i task next)
    (hothers : ∀ j task' stage', j ≠ i → crew.Member j task' stage' → P j task' stage') :
    ∀ j task' stage',
      Member { crew with crowd, members := crew.members.set i (task, next) } j task' stage' →
      P j task' stage' := by
  intro j task' stage' hj
  rcases (member_set crowd h).mp hj with ⟨rfl, rfl, rfl⟩ | ⟨hne, hold⟩
  · exact hself
  · exact hothers j task' stage' hne hold

/-- After a move, something holds of one thread at most if this was so before, and if it does not
hold of another thread than the one that moved once it holds of that one. -/
theorem unique_member_set {P : Stage ν → Prop} (crowd : Crowd ν) (h : crew.Member i task stage)
    (hself : P next → ∀ j task' stage', crew.Member j task' stage' → P stage' → j = i)
    (honce : ∀ j j' task₁ task₂ stage₁ stage₂, crew.Member j task₁ stage₁ →
      crew.Member j' task₂ stage₂ →
      P stage₁ → P stage₂ → j = j') :
    ∀ j j' task₁ task₂ stage₁ stage₂,
      Member { crew with crowd, members := crew.members.set i (task, next) } j task₁ stage₁ →
      Member { crew with crowd, members := crew.members.set i (task, next) } j' task₂ stage₂ →
      P stage₁ → P stage₂ → j = j' := by
  intro j j' task₁ task₂ stage₁ stage₂ hj hj' h₁ h₂
  rcases (member_set crowd h).mp hj with ⟨rfl, rfl, rfl⟩ | ⟨-, hj₁⟩
  · rcases (member_set crowd h).mp hj' with ⟨rfl, -, -⟩ | ⟨-, hold'⟩
    · rfl
    · exact (hself h₁ j' task₂ stage₂ hold' h₂).symm
  · rcases (member_set crowd h).mp hj' with ⟨rfl, rfl, rfl⟩ | ⟨-, hold'⟩
    · exact hself h₂ j task₁ stage₁ hj₁ h₁
    · exact honce j j' task₁ task₂ stage₁ stage₂ hj₁ hold' h₁ h₂

end

theorem gathered_iff {crew : Crew ν} :
    crew.gathered = true ↔ ∀ i task stage, crew.Member i task stage → stage.started = true := by
  unfold gathered
  rw [List.all_eq_true]
  constructor
  · exact fun h i task stage hm => h _ (List.mem_of_getElem? hm)
  · intro h member hmem
    obtain ⟨i, hi⟩ := List.getElem?_of_mem hmem
    exact h i member.1 member.2 hi

/-- A turn is a move of the thread, or the thread cannot move. -/
theorem turn_cases (crew : Crew ν) (i : Nat) :
    crew.turn i = crew ∨ ∃ task stage stage' k', crew.Member i task stage ∧
      Advances crew.crowd (crew.first + i) crew.gathered task stage stage' k' ∧
      crew.turn i = { crew with crowd := k', members := crew.members.set i (task, stage') } := by
  unfold turn
  cases hm : crew.members[i]? with
  | none => exact Or.inl rfl
  | some member =>
      obtain ⟨task, stage⟩ := member
      cases ha : advance crew.crowd (crew.first + i) crew.gathered task stage with
      | none => exact Or.inl (by simp only [ha])
      | some next => exact Or.inr ⟨task, stage, next.1, next.2, hm, advances ha, by simp only [ha]⟩

/-- What holds of a crew between any two events. -/
structure Sound (crew : Crew ν) : Prop where
  crowd : crew.crowd.Sound
  does : ∀ t, crew.crowd.Does t (crew.stageOf t)
  /-- What is sought has been made. -/
  made : ∀ t s, (crew.stageOf t).seeks = some s → s < crew.crowd.cache.entries.length
  /-- Only sleepers are told to look again. -/
  woken : ∀ t ∈ crew.crowd.woken, crew.crowd.isAsleep t = true
  /-- No wake-up is lost. -/
  told : ∀ t s, (crew.stageOf t).sleepsAt = some s → t ∈ crew.crowd.woken ∨
    (∃ u, crew.crowd.cache.ownerAt s = some u) ∨ ∃ u, (crew.stageOf u).tells = some s

/-- Only the crew computes something. -/
theorem Sound.owner_member {crew : Crew ν} (hc : crew.Sound) {s : Serial} {u : Thread}
    (hu : crew.crowd.cache.ownerAt s = some u) :
    ∃ i task stage, u = crew.first + i ∧ crew.Member i task stage ∧ s ∈ stage.computes := by
  have hmem := ((hc.does u).owns s).mp hu
  obtain ⟨i, task, ht, hi⟩ := exists_member (Stage.ne_ready_of_computes hmem)
  exact ⟨i, task, _, ht, hi, hmem⟩

theorem Sound.assemble {c : Cache ν} (hc : c.Idle) (first : Thread) (tasks : List (Task ν)) :
    (assemble c first tasks).Sound := by
  have hstage : ∀ t, (Crew.assemble c first tasks).stageOf t = .ready := by
    intro t
    unfold stageOf Crew.assemble
    split
    · simp only [List.getElem?_map]
      cases tasks[t - first]? <;> rfl
    · rfl
  refine ⟨.gather hc.1 hc.2, fun t => ?_, fun t s h => ?_, fun t h => ?_, fun t s h => ?_⟩
  · rw [hstage]
    refine ⟨fun s => ?_, List.nodup_nil, fun s => ?_, ?_⟩
    · simp [Crew.assemble, Crowd.gather, hc.2 s, Stage.computes]
    · simp [Crew.assemble, Crowd.gather, Stage.leaves]
    · simp [Crew.assemble, Crowd.gather, hc.1, WaitGraph.empty, Stage.sleepsAt]
  · rw [hstage] at h
    cases h
  · cases h
  · rw [hstage] at h
    cases h

variable {crew : Crew ν}

theorem Sound.turn (hc : crew.Sound) (i : Nat) : (crew.turn i).Sound := by
  rcases turn_cases crew i with hsame | ⟨task, stage, stage', k', hm, ha, hturn⟩
  · rw [hsame]
    exact hc
  have hstage := stageOf_eq hm
  have hd := hc.does (crew.first + i)
  rw [hstage] at hd
  rw [hturn]
  refine ⟨ha.sound hc.crowd, fun u => ?_, fun u s hs => ?_,
    ha.woken hc.crowd hc.woken, fun u s hs => ?_⟩
  · rw [stageOf_set k' hm]
    split
    · rename_i hu
      exact hu ▸ ha.does hc.crowd hd
    · rename_i hu
      exact (hc.does u).apart (ha.apart hc.crowd) hu
  · rw [stageOf_set k' hm] at hs
    split at hs
    · exact ha.made (fun s hs => hc.made _ s (hstage ▸ hs)) hs
    · exact Nat.lt_of_lt_of_le (hc.made u s hs) ha.length_le
  · simp only [stageOf_set k' hm] at hs ⊢
    split at hs
    · exact Or.inr (Or.inl (ha.sleeps hs))
    · rename_i hu
      rcases hc.told u s hs with hw | ho | ⟨v, hv⟩
      · exact Or.inl (ha.still_woken hu hw)
      · rcases ha.still_owned hc.crowd ho with ho | ht
        · exact Or.inr (Or.inl ho)
        · exact Or.inr (Or.inr ⟨crew.first + i, by rw [if_pos rfl]; exact ht⟩)
      · by_cases hvt : v = crew.first + i
        · subst hvt
          exact Or.inl (ha.tells_woken hc.crowd (hstage ▸ hv) ((hc.does u).sleeps.trans hs))
        · exact Or.inr (Or.inr ⟨v, by rw [if_neg hvt]; exact hv⟩)

theorem Sound.stir (hc : crew.Sound) (i : Nat) : (crew.stir i).Sound := by
  unfold Crew.stir
  split
  · rename_i hasleep
    refine ⟨hc.crowd.of_same rfl (fun _ => rfl) rfl, fun t => ?_, hc.made,
      fun t ht => ?_, fun t s hs => ?_⟩
    · exact ⟨(hc.does t).owns, (hc.does t).once, (hc.does t).leaves, (hc.does t).sleeps⟩
    · rcases List.mem_cons.mp ht with rfl | ht
      · exact hasleep
      · exact hc.woken t ht
    · exact (hc.told t s hs).imp_left (List.mem_cons_of_mem _)
  · exact hc

theorem Sound.after (hc : crew.Sound) (event : Event) : (crew.after event).Sound := by
  cases event with
  | turn i => exact hc.turn i
  | stir i => exact hc.stir i

theorem run_cons (crew : Crew ν) (event : Event) (schedule : List Event) :
    crew.run (event :: schedule) = (crew.after event).run schedule := rfl

theorem run_append (crew : Crew ν) (schedule later : List Event) :
    crew.run (schedule ++ later) = (crew.run schedule).run later := List.foldl_append

theorem Sound.run (hc : crew.Sound) (schedule : List Event) : (crew.run schedule).Sound := by
  induction schedule generalizing crew with
  | nil => exact hc
  | cons event schedule ih => exact ih (hc.after event)

/-- What every move keeps, and what does not depend on who was told to look again, holds
after every schedule. -/
theorem Sound.run_induction {P : Crew ν → Prop} (hc : crew.Sound) (hstart : P crew)
    (hturn : ∀ (crew : Crew ν) i task stage stage' k', crew.Sound → P crew →
      crew.Member i task stage →
      Advances crew.crowd (crew.first + i) crew.gathered task stage stage' k' →
      P { crew with crowd := k', members := crew.members.set i (task, stage') })
    (hstir : ∀ (crew : Crew ν) woken, P crew → P { crew with crowd := { crew.crowd with woken } })
    (schedule : List Event) : P (crew.run schedule) := by
  induction schedule generalizing crew with
  | nil => exact hstart
  | cons event schedule ih =>
      refine ih (hc.after event) ?_
      cases event with
      | turn i =>
          show P (crew.turn i)
          rcases turn_cases crew i with hsame | ⟨task, stage, stage', k', hm, ha, heq⟩
          · rw [hsame]
            exact hstart
          · rw [heq]
            exact hturn crew i task stage stage' k' hc hstart hm ha
      | stir i =>
          show P (crew.stir i)
          unfold Crew.stir
          split
          · exact hstir crew _ hstart
          · exact hstart

theorem Sound.tasks_run (hc : crew.Sound) (schedule : List Event) :
    (crew.run schedule).members.map (·.1) = crew.members.map (·.1) := by
  refine hc.run_induction (P := fun crew' => crew'.members.map (·.1) =
    crew.members.map (·.1)) rfl ?_ ?_ schedule
  · rintro crew' i task stage stage' k' - hP hm -
    -- the task that is put back is the one that was there
    have hsame : (crew'.members.map (·.1))[i]? = some task := by simp [hm.eq]
    show (crew'.members.set i (task, stage')).map (·.1) = _
    rw [List.map_set, ← hP]
    obtain ⟨hlt, rfl⟩ := List.getElem?_eq_some_iff.mp hsame
    exact List.set_getElem_self hlt
  · exact fun _ _ hP => hP

section Assembled

variable {c : Cache ν} (hc : c.Idle) (first : Thread) (tasks : List (Task ν))
  (schedule : List Event)

include hc

theorem tasks_assemble : ((assemble c first tasks).run schedule).members.map (·.1) = tasks := by
  rw [(Sound.assemble hc first tasks).tasks_run]
  show (tasks.map _).map _ = tasks
  rw [List.map_map]
  exact List.map_id _

theorem length_assemble :
    ((assemble c first tasks).run schedule).members.length = tasks.length := by
  have h := congrArg List.length (tasks_assemble hc first tasks schedule)
  rwa [List.length_map] at h

theorem Member.task_eq {i : Nat} {task : Task ν} {stage : Stage ν}
    (h : ((assemble c first tasks).run schedule).Member i task stage) : tasks[i]? = some task := by
  have h' := congrArg (fun members => members[i]?) (tasks_assemble hc first tasks schedule)
  rw [← h', List.getElem?_map, h.eq]
  rfl

theorem exists_member_assemble {i : Nat} {task : Task ν} (h : tasks[i]? = some task) :
    ∃ stage, ((assemble c first tasks).run schedule).Member i task stage := by
  have h' := congrArg (fun members => members[i]?) (tasks_assemble hc first tasks schedule)
  rw [List.getElem?_map] at h'
  obtain ⟨⟨task', stage⟩, hm, rfl⟩ := Option.map_eq_some_iff.mp (h'.trans h)
  exact ⟨stage, hm⟩

end Assembled

end Crew

end FSharpWorkspace
