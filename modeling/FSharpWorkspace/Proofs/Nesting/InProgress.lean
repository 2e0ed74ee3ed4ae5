import FSharpWorkspace.Proofs.Nesting.Activity
/-!
# What is in progress

Two things follow from the agreement of the cache with the suppliers that run.

A request is refused just when the supplier that asks would wait for itself
(`refused_iff_enclosed`). A supplier for the same file further out is no reason to refuse if the
file was invalidated since: its entry left the map, and the file is computed anew.

And nothing is left behind (`owned_iff_inProgress`). However suppliers end, by a value, by a value
that is rejected or by a panic, the entries in progress are those of the suppliers that still run.
-/

set_option autoImplicit false

namespace FSharpWorkspace.Cache

variable {ν : Type}

/-! ## Refusals -/

/-- Some supplier for the file at `l` is running, and `l` was not invalidated since the
last of them started. -/
def Activity.Encloses (σ : Activity ν) (l : Location) : Prop :=
  ∃ r, σ.runs.find? (·.id.location = l) = some r ∧ l ∉ r.since

section

variable {me : Thread} {σ σ' : Activity ν}

theorem Activity.Sound.encloses_of_busy (hσ : σ.Sound me) {l : Location}
    (hb : σ.cache.Busy l) : σ.Encloses l := by
  obtain ⟨s, e, owner, marks, he, hs⟩ := hb
  obtain ⟨r, hr, rfl⟩ := hσ.ran s e owner marks he.1 hs
  obtain ⟨f, hf⟩ := hσ.computes r hr
  obtain rfl := Option.some.inj (he.1.symm.trans hf.entry)
  have hplace : r.id.location = l := hf.id ▸ he.2.2
  have hsince : l ∉ r.since := hplace ▸ hf.listed.mp he.2.1
  cases hfind : σ.runs.find? (·.id.location = l) with
  | none => exact absurd hplace (by simpa using List.find?_eq_none.mp hfind r hr)
  | some q =>
      -- the run found is this one or started later, and then it saw less invalidated
      obtain ⟨-, inner, outer, hruns, hinner⟩ := List.find?_eq_some_iff_append.mp hfind
      refine ⟨q, hfind, fun hq => hsince ?_⟩
      have hnested := hσ.nested
      rw [hruns] at hr hnested
      rcases List.mem_append.mp hr with hr | hr
      · exact absurd hplace (by simpa using hinner r hr)
      · rcases List.mem_cons.mp hr with rfl | hr
        · exact hq
        · exact (List.pairwise_cons.mp (List.pairwise_append.mp hnested).2.1).1 r hr hq

theorem Activity.Sound.busy_iff (hσ : σ.Sound me) (l : Location) :
    σ.cache.Busy l ↔ σ.Encloses l := by
  refine ⟨hσ.encloses_of_busy, ?_⟩
  rintro ⟨r, hfind, hl⟩
  obtain rfl : r.id.location = l := by simpa using List.find?_some hfind
  obtain ⟨e, he⟩ := hσ.computes r (List.mem_of_find?_eq_some hfind)
  exact ⟨r.serial, e, me, r.since, he.holds hl, he.state_of_notMem hl⟩

end

/-- **Refusals.** In any program of a single thread, a request is refused if and only if a
supplier for the same file is running and the file was not invalidated since the last of them
started; the refusal names the file and changes nothing. Any other request gets the published
value, or starts a supplier. -/
theorem refused_iff_enclosed {me : Thread} {σ : Activity ν} (hσ : σ.Reached me) (id : Identity) :
    ((∃ id', (σ.cache.start me id).1 = .refused id') ↔ σ.Encloses id.location) ∧
      (∀ id', (σ.cache.start me id).1 = .refused id' →
        id'.location = id.location ∧ σ.after me (.get id) = some σ) ∧
      (¬ σ.Encloses id.location →
        (∃ v, σ.cache.start me id = (.ready v, σ.cache) ∧ σ.cache.peek id.location = some v) ∨
        ∃ s id' c, σ.cache.start me id = (.claimed s id', c) ∧ id'.location = id.location ∧
          σ.after me (.get id) = some ⟨c, ⟨id', s, []⟩ :: σ.runs⟩) := by
  have hsound := hσ.sound
  rw [← hsound.busy_iff]
  rcases start_cases hsound.lone hsound.owned id
    with ⟨v, h, hp⟩ | ⟨s, e, h, he, hb⟩ | ⟨s, id', c, h, hc, -⟩
  · have hidle : ¬ σ.cache.Busy id.location := fun hb => by
      cases hp.symm.trans (hb.peek_eq_none hsound.lone)
    rw [h]
    exact ⟨by simp [hidle], by simp, fun _ => Or.inl ⟨v, rfl, hp⟩⟩
  · refine ⟨by simp [h, hb], fun id' hid => ?_, fun hidle => absurd hb hidle⟩
    rw [h] at hid
    cases hid
    exact ⟨he.2.2, by simp [Activity.after, h]⟩
  · have hidle : ¬ σ.cache.Busy id.location := hc.not_busy hsound.lone
    refine ⟨by simp [h, hidle], by simp [h], fun _ => Or.inr ⟨s, id', c, h, hc.place, ?_⟩⟩
    simp [Activity.after, h]

/-- A supplier for `b.fsproj` runs within one for `a.fsproj`. -/
def computingBoth : Activity String where
  cache :=
    { entries := [⟨⟨⟨["a.fsproj"]⟩, .project⟩, true, .inProgress 0 []⟩,
        ⟨⟨⟨["b.fsproj"]⟩, .project⟩, true, .inProgress 0 []⟩]
      waits := ⟨[(1, 0), (0, 0)], []⟩ }
  runs := [⟨⟨⟨["b.fsproj"]⟩, .project⟩, 1, []⟩, ⟨⟨⟨["a.fsproj"]⟩, .project⟩, 0, []⟩]

theorem refused_iff_enclosed_computingBoth : Activity.Reached 0 computingBoth ∧
    ∃ id', (computingBoth.cache.start 0 ⟨⟨["a.fsproj"]⟩, .project⟩).1 = .refused id' := by
  have hreached : Activity.Reached 0 computingBoth :=
    ⟨[.get ⟨⟨["a.fsproj"]⟩, .project⟩, .get ⟨⟨["b.fsproj"]⟩, .project⟩], rfl⟩
  exact ⟨hreached, (refused_iff_enclosed hreached _).1.mpr ⟨_, rfl, by simp⟩⟩

/-! ## Unwinding -/

section

variable {me : Thread} {σ σ' : Activity ν}

/-- A panic that nobody catches ends every supplier. -/
theorem Activity.unwinds (me : Thread) (σ : Activity ν) :
    ∃ c, Activity.run me (List.replicate σ.runs.length .panics) σ = some ⟨c, []⟩ := by
  obtain ⟨c, runs⟩ := σ
  induction runs generalizing c with
  | nil => exact ⟨c, rfl⟩
  | cons r outer ih => exact ih (c.abandon r.serial)

/-- Unwinding resets the entries of the suppliers that it ends, and these were not done. -/
theorem Activity.Sound.unwind_done {n : Nat} (hσ : σ.Sound me)
    (h : Activity.run me (List.replicate n .panics) σ = some σ') {s : Serial} {e : Entry ν} {v : ν}
    (he : σ.cache.entries[s]? = some e) (hv : e.state = .done v) :
    σ'.cache.entries[s]? = some e := by
  induction n generalizing σ with
  | zero =>
      cases h
      exact he
  | succ n ih =>
      obtain ⟨σ₁, h₁, hrest⟩ := Activity.run_cons.mp (List.replicate_succ ▸ h)
      have hsound := (Step.of_after hσ h₁).sound hσ
      obtain ⟨c, runs⟩ := σ
      cases runs with
      | nil => cases h₁
      | cons r outer =>
          cases h₁
          have hne : r.serial ≠ s := by
            refine hσ.serial_ne List.mem_cons_self fun f owner marks hf => ?_
            obtain rfl := Option.some.inj (he.symm.trans hf)
            simp [hv]
          exact ih hsound hrest ((getElem?_release_ne c .uncomputed hne).trans he)

/-- When no supplier runs, nothing is in progress. -/
theorem Activity.Sound.idle (hσ : σ.Sound me) (hruns : σ.runs = []) : σ.cache.waits = .empty ∧
    ∀ (s : Serial) e owner marks, σ.cache.entries[s]? = some e →
      e.state ≠ .inProgress owner marks := by
  refine ⟨by rw [hσ.waits, hruns]; rfl, fun s e owner marks he hs => ?_⟩
  obtain ⟨r, hr, -⟩ := hσ.ran s e owner marks he hs
  rw [hruns] at hr
  cases hr

end

/-- **No residue.** At any moment of any program of a single thread, the entries in progress are
those that have an owner, in the map or not, and nobody waits. When no supplier runs, no entry is in
progress and nothing is owned. A panic may unwind past any number of suppliers, up to all of them,
and leaves every entry that was done as it was. -/
theorem owned_iff_inProgress {me : Thread} {σ : Activity ν} (hσ : σ.Reached me) :
    (∀ s owner, (s, owner) ∈ σ.cache.waits.owners ↔
      ∃ e marks, σ.cache.entries[s]? = some e ∧ e.state = .inProgress owner marks) ∧
    (σ.cache.waits.owners.map (·.1)).Nodup ∧
    σ.cache.waits.waiting = [] ∧
    (σ.runs = [] → σ.cache.waits = .empty ∧
      ∀ (s : Serial) e owner marks, σ.cache.entries[s]? = some e →
        e.state ≠ .inProgress owner marks) ∧
    (∃ c, Activity.run me (List.replicate σ.runs.length .panics) σ = some ⟨c, []⟩) ∧
    ∀ n σ', Activity.run me (List.replicate n .panics) σ = some σ' →
      ∀ (s : Serial) e v, σ.cache.entries[s]? = some e → e.state = .done v →
        σ'.cache.entries[s]? = some e := by
  have hsound := hσ.sound
  refine ⟨fun s owner => ?_, ?_, by rw [hsound.waits]; rfl, hsound.idle, σ.unwinds me,
    fun n σ' h s e v => hsound.unwind_done h⟩
  · rw [hsound.waits]
    constructor
    · intro hmem
      obtain ⟨r, hr, hrs⟩ := List.mem_map.mp hmem
      cases hrs
      obtain ⟨e, he⟩ := hsound.computes r hr
      obtain ⟨marks, hs, -⟩ := he.state
      exact ⟨e, marks, he.entry, hs⟩
    · rintro ⟨e, marks, he, hs⟩
      obtain rfl := hsound.owned s e owner marks he hs
      obtain ⟨r, hr, rfl⟩ := hsound.ran s e owner marks he hs
      exact List.mem_map.mpr ⟨r, hr, rfl⟩
  · rw [hsound.waits]
    simpa [waitsOf, Function.comp_def] using hsound.apart

/-- Two suppliers for `a.fsproj` are running, the inner one since the file was invalidated, and
`b.fsproj` is done. -/
def computingTwice : Activity String where
  cache :=
    { entries := [⟨⟨⟨["a.fsproj"]⟩, .project⟩, false, .inProgress 0 []⟩,
        ⟨⟨⟨["a.fsproj"]⟩, .project⟩, true, .inProgress 0 []⟩,
          ⟨⟨⟨["b.fsproj"]⟩, .project⟩, true, .done "b"⟩]
      waits := ⟨[(1, 0), (0, 0)], []⟩ }
  runs := [⟨⟨⟨["a.fsproj"]⟩, .project⟩, 1, []⟩, ⟨⟨⟨["a.fsproj"]⟩, .project⟩, 0, [⟨["a.fsproj"]⟩]⟩]

theorem owned_iff_inProgress_computingTwice : Activity.Reached 0 computingTwice ∧
    (0, 0) ∈ computingTwice.cache.waits.owners ∧
    ∃ c, Activity.run 0 (List.replicate 2 .panics) computingTwice = some ⟨c, []⟩ ∧
      c.entries[2]? = computingTwice.cache.entries[2]? := by
  have hreached : Activity.Reached 0 computingTwice :=
    ⟨[.get ⟨⟨["a.fsproj"]⟩, .project⟩, .invalidate ⟨["a.fsproj"]⟩, .get ⟨⟨["a.fsproj"]⟩, .project⟩,
      .get ⟨⟨["b.fsproj"]⟩, .project⟩, .returns "b" fun _ _ => false], rfl⟩
  obtain ⟨howned, -, -, -, ⟨c, hc⟩, hdone⟩ := owned_iff_inProgress hreached
  exact ⟨hreached, (howned 0 0).mpr ⟨_, _, rfl, rfl⟩, c, hc, hdone 2 _ hc 2 _ "b" rfl rfl⟩

end FSharpWorkspace.Cache
