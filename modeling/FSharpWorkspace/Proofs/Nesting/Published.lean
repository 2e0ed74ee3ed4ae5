import FSharpWorkspace.Proofs.Nesting.Activity
/-!
# What a supplier publishes

A supplier that returns hands its value to the entry that it was started for. `run_publishes_iff`
says when the map holds it there afterwards. A supplier may invalidate its own file and have it
computed anew, so it is the entry that counts: a newer entry for the same file may hold the same
value by chance, and it is the newer run that published it.

A published value is not touched by anything but an invalidation of its file (`Step.publishes`).
-/

set_option autoImplicit false

namespace FSharpWorkspace.Cache

variable {ν : Type}

def Publishes (c : Cache ν) (l : Location) (s : Serial) (v : ν) : Prop :=
  ∃ e, c.Holds l s e ∧ e.state = .done v

section

variable {me : Thread} {σ σ' : Activity ν} {ls : List Location} {c : Cache ν} {l : Location}
  {s : Serial} {v : ν}

/-! ## Published values stay -/

theorem Publishes.peek (h : c.Publishes l s v) (hc : c.Lone) : c.peek l = some v := by
  obtain ⟨e, he, hv⟩ := h
  exact (peek_eq_some hc l v).mpr ⟨s, e, he, hv⟩

/-- Whoever asks for a published value gets it, and runs no supplier. -/
theorem Publishes.start {id : Identity} (h : c.Publishes id.location s v) (hc : c.Lone)
    (me : Thread) :
    c.start me id = (.ready v, c) := by
  obtain ⟨e, he, hv⟩ := h
  rw [start_of_holds hc me he]
  exact request_ready me e.id ((stateAt_eq he.1).trans hv)

theorem Step.publishes (hσ : σ.Sound me) (h : Step me σ ls σ') (hp : σ.cache.Publishes l s v)
    (hl : l ∉ ls) :
    σ'.cache.Publishes l s v := by
  obtain ⟨e, he, hv⟩ := hp
  cases h with
  | stay => exact ⟨e, he, hv⟩
  | keep _ => exact ⟨e, ⟨getElem?_concat_of_some he.1, he.2⟩, hv⟩
  | claim hc _ =>
      -- what is claimed was uncomputed
      refine ⟨e, ⟨(hc.others s ?_).trans he.1, he.2⟩, hv⟩
      rintro rfl
      obtain rfl := hc.before_eq he.1
      cases hv
  | invalidate _ x =>
      have hne : l ≠ x := by simpa using hl
      refine ⟨e.mark x, (holds_invalidate σ.cache x l s _).mpr ⟨e, he, hne, rfl⟩, ?_⟩
      rw [← Entry.value?_eq_some, Entry.mark_value?, Entry.value?_eq_some]
      exact hv
  | @leave c r outer state _ =>
      -- what is computed is not done
      have hne : r.serial ≠ s := by
        refine hσ.serial_ne List.mem_cons_self fun f owner marks hf => ?_
        obtain rfl := Option.some.inj (he.1.symm.trans hf)
        simp [hv]
      exact ⟨e, ⟨(getElem?_release_ne c state hne).trans he.1, he.2⟩, hv⟩

theorem Activity.Sound.run_publishes {events : List (Event ν)} (hσ : σ.Sound me)
    (h : Activity.run me events σ = some σ') (hp : σ.cache.Publishes l s v) (hl : l ∉ lost events) :
    σ'.cache.Publishes l s v := by
  induction events generalizing σ with
  | nil =>
      cases h
      exact hp
  | cons event events ih =>
      obtain ⟨σ₁, h₁, hrest⟩ := Activity.run_cons.mp h
      obtain ⟨hl₁, hl'⟩ :=
        not_or.mp (List.mem_append.not.mp (show l ∉ event.lost ++ lost events from hl))
      have hstep := Step.of_after hσ h₁
      exact ih (hstep.sound hσ) hrest (hstep.publishes hσ hp hl₁) hl'

end

/-! ## What arrives -/

section

variable {me : Thread} {c : Cache ν} {r : Run} {outer : List Run}

theorem isStale_eq_false (stale : ν → Location → Bool) (v : ν) (marks : List Location) :
    isStale stale v marks = false ↔ ∀ l ∈ marks, stale v l = false := by simp [isStale]

/-- A value that arrives is published if the file of its run, and whatever makes it stale, was not
invalidated since the run started. -/
theorem Activity.Sound.publishes_finish_iff (hσ : Activity.Sound me ⟨c, r :: outer⟩) (v : ν)
    (stale : ν → Location → Bool) : (c.finish r.serial v stale).Publishes r.id.location r.serial v ↔
      r.id.location ∉ r.since ∧ ∀ l ∈ r.since, stale v l = false := by
  obtain ⟨e, he⟩ := hσ.computes r List.mem_cons_self
  have hself := getElem?_finish_eq v stale he.entry
  rw [← isStale_eq_false]
  constructor
  · rintro ⟨f, hf, hv⟩
    obtain rfl := Option.some.inj (hself.symm.trans hf.1)
    have hl := he.listed.mp hf.2.1
    refine ⟨hl, ?_⟩
    by_contra hstale
    simp [he.state_of_notMem hl, handedIn, hstale] at hv
  · rintro ⟨hl, hfresh⟩
    refine ⟨_, ⟨hself, he.listed.mpr hl, he.id ▸ rfl⟩, ?_⟩
    simp [he.state_of_notMem hl, handedIn, hfresh]

/-- A value whose file was invalidated goes to an entry that left the map, so the
map stays as it is. -/
theorem Activity.Sound.holds_finish_iff (hσ : Activity.Sound me ⟨c, r :: outer⟩)
    (hr : r.id.location ∈ r.since) (v : ν) (stale : ν → Location → Bool) (l : Location) (s : Serial)
    (f : Entry ν) :
    (c.finish r.serial v stale).Holds l s f ↔ c.Holds l s f := by
  obtain ⟨e, he⟩ := hσ.computes r List.mem_cons_self
  by_cases hs : s = r.serial
  · subst hs
    have hself := getElem?_finish_eq v stale he.entry
    have hunlisted : ¬ e.listed = true := fun hl => he.listed.mp hl hr
    constructor
    · rintro ⟨hf, hl, -⟩
      obtain rfl := Option.some.inj (hself.symm.trans hf)
      exact absurd hl hunlisted
    · rintro ⟨hf, hl, -⟩
      obtain rfl := Option.some.inj (he.entry.symm.trans hf)
      exact absurd hl hunlisted
  · unfold Holds
    rw [getElem?_finish_ne c v stale hs]

/-- What the map answers for a file once its run has returned. -/
theorem Activity.Sound.peek_finish (hσ : Activity.Sound me ⟨c, r :: outer⟩) (v : ν)
    (stale : ν → Location → Bool) :
    (c.finish r.serial v stale).peek r.id.location =
      if r.id.location ∈ r.since then c.peek r.id.location
      else if isStale stale v r.since then none else some v := by
  by_cases hr : r.id.location ∈ r.since
  · rw [if_pos hr]
    refine Option.ext fun u => ?_
    rw [peek_eq_some (hσ.lone.finish r.serial v stale), peek_eq_some hσ.lone]
    simp only [hσ.holds_finish_iff hr v stale]
  · rw [if_neg hr]
    obtain ⟨e, he⟩ := hσ.computes r List.mem_cons_self
    exact (he.holds hr).peek_finish hσ.lone (he.state_of_notMem hr) v stale

end

/-! ## From the start of a supplier to its end -/

section

variable {me : Thread} {σ : Activity ν} {id id' : Identity} {s : Serial} {c₁ c₂ : Cache ν}
  {body : List (Event ν)}

/-- A supplier is started, and does what it does. -/
theorem Activity.Sound.run_body (hσ : σ.Sound me)
    (hget : σ.cache.start me id = (.claimed s id', c₁))
    (hbody : Activity.run me body ⟨c₁, []⟩ = some ⟨c₂, []⟩) :
    id'.location = id.location ∧
    Activity.run me (.get id :: body) σ =
      some ⟨c₂, ⟨id', s, lost body⟩ :: σ.runs.map (·.note (lost body))⟩ := by
  constructor
  · rcases start_cases hσ.lone hσ.owned id with ⟨v, h, -⟩ | ⟨t, e, h, -⟩ | ⟨t, id₁, c, h, hc, -⟩
    · cases hget.symm.trans h
    · cases hget.symm.trans h
    · cases hget.symm.trans h
      exact hc.place
  · have hstart : σ.after me (.get id) = some ⟨c₁, ⟨id', s, []⟩ :: σ.runs⟩ := by
      simp [Activity.after, hget]
    exact Activity.run_cons.mpr ⟨_, hstart, Activity.run_outer hbody _⟩

end

/-- **What a supplier publishes.** Let a supplier be started for `id`, run any program of its own,
and return `v`. Then `v` is published if and only if neither `id` nor a file for which `v` is stale
was invalidated by that program. If it is published, it answers every request and every look at `id`
until `id` is invalidated. And if `id` was invalidated, the value changes nothing in the map,
whatever newer entries for `id` hold. -/
theorem run_publishes_iff {me : Thread} {σ : Activity ν} {id id' : Identity} {s : Serial}
    {c₁ c₂ : Cache ν} {body : List (Event ν)} (hσ : σ.Reached me)
    (hget : σ.cache.start me id = (.claimed s id', c₁))
    (hbody : Activity.run me body ⟨c₁, []⟩ = some ⟨c₂, []⟩) (v : ν) (stale : ν → Location → Bool) :
    ∃ σ' : Activity ν, Activity.run me (.get id :: (body ++ [.returns v stale])) σ = some σ' ∧
      σ' = ⟨c₂.finish s v stale, σ.runs.map (·.note (lost body))⟩ ∧
      (σ'.cache.Publishes id.location s v ↔ id.location ∉ lost body ∧
        ∀ l ∈ lost body, stale v l = false) ∧
      (σ'.cache.peek id.location =
        if id.location ∈ lost body then c₂.peek id.location
        else if isStale stale v (lost body) then none else some v) ∧
      (σ'.cache.Publishes id.location s v → ∀ events σ'', Activity.run me events σ' = some σ'' →
        id.location ∉ lost events → σ''.cache.peek id.location = some v ∧
          ∀ asked : Identity, asked.location = id.location →
            σ''.cache.start me asked = (.ready v, σ''.cache)) ∧
      (id.location ∈ lost body → ∀ l t e, σ'.cache.Holds l t e ↔ c₂.Holds l t e) := by
  obtain ⟨hplace, hrun⟩ := hσ.sound.run_body hget hbody
  have hend := (hσ.run hrun).sound
  have hreturn : Activity.run me (.get id :: (body ++ [.returns v stale])) σ =
      some ⟨c₂.finish s v stale, σ.runs.map (·.note (lost body))⟩ :=
    Activity.run_append.mpr ⟨_, hrun, rfl⟩
  have hσ' := (hσ.run hreturn).sound
  refine ⟨_, hreturn, rfl, ?_, ?_, fun hp events σ'' hlater hl => ?_, fun hl => ?_⟩
  · have hiff := hend.publishes_finish_iff v stale
    rwa [hplace] at hiff
  · have hpeek := hend.peek_finish v stale
    rwa [hplace] at hpeek
  · have hp' := hσ'.run_publishes hlater hp hl
    have hlone := (hσ'.run hlater).lone
    exact ⟨hp'.peek hlone, fun asked hasked => Publishes.start (hasked ▸ hp') hlone me⟩
  · exact hend.holds_finish_iff (hplace ▸ hl) v stale

/-- A supplier that has `b.fsproj` computed, and meanwhile `c.fsproj` is invalidated. -/
def computingWithin : List (Event String) :=
  [.get ⟨⟨["b.fsproj"]⟩, .project⟩, .invalidate ⟨["c.fsproj"]⟩, .returns "b" fun _ _ => false]

/-- A value for `a.fsproj` that depends on `b.fsproj` is published, for only
`c.fsproj` was invalidated. -/
theorem run_publishes_iff_computingWithin : ∃ (c₁ c₂ : Cache String) (σ : Activity String),
    Activity.Reached 0 (⟨.empty, []⟩ : Activity String) ∧
    Cache.start .empty 0 ⟨⟨["a.fsproj"]⟩, .project⟩ = (.claimed 0 ⟨⟨["a.fsproj"]⟩, .project⟩, c₁) ∧
    Activity.run 0 computingWithin ⟨c₁, []⟩ = some ⟨c₂, []⟩ ∧
    Activity.run 0 (.get ⟨⟨["a.fsproj"]⟩, .project⟩ ::
      (computingWithin ++ [.returns "a" fun _ l => decide (l = ⟨["b.fsproj"]⟩)])) ⟨.empty, []⟩ =
        some σ ∧
    σ.cache.Publishes ⟨["a.fsproj"]⟩ 0 "a" := by
  obtain ⟨c₁, hget⟩ : ∃ c₁ : Cache String, Cache.start .empty 0 ⟨⟨["a.fsproj"]⟩, .project⟩ =
      (.claimed 0 ⟨⟨["a.fsproj"]⟩, .project⟩, c₁) := ⟨_, rfl⟩
  obtain ⟨c₂, hbody⟩ : ∃ c₂, Activity.run 0 computingWithin ⟨c₁, []⟩ = some ⟨c₂, []⟩ := by
    cases hget
    exact ⟨_, rfl⟩
  obtain ⟨σ, hrun, -, hiff, -⟩ :=
    run_publishes_iff (.start 0) hget hbody "a" fun _ l => decide (l = ⟨["b.fsproj"]⟩)
  exact ⟨c₁, c₂, σ, .start 0, hget, hbody, hrun, hiff.mpr ⟨by decide, by decide⟩⟩

end FSharpWorkspace.Cache
