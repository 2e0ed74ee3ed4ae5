import FSharpWorkspace.Proofs.Resolution.Order
import FSharpWorkspace.Proofs.Sequential.Declared
import FSharpWorkspace.Proofs.Sequential.Marks
/-!
# What is reached between resolutions

While the table never changes, what a resolved project references is resolved, and from a reference
that was refused there is a way back (`Workspace.Searching.resolved`). What a result holds is
reached along references of the table (`Workspace.Resolving.reaches`), so the order of its
dependencies lists nothing else. It may list less than what is reached, as no reference that was
refused is followed.
-/

set_option autoImplicit false

namespace FSharpWorkspace

/-- The table makes the project `id` reference `dep`. Scripts reference nothing. -/
def Memory.References (m : Memory) (id dep : Identity) : Prop :=
  id.kind = .project ∧ dep ∈ (m.report id.location).links id

open Relation (ReflTransGen TransGen)
open Resolution (Holds Lists Unanimous dependencyOrder)

section

variable {m : Memory} {path : List Identity} {pending : List Location} {w w' : Workspace Memory}
  {id dep : Identity} {n x : Location} {r q : Resolution}

/-! ## Held results -/

/-- The results in a sound map agree about each file. -/
theorem Workspace.Sound.unanimous (hw : w.Sound pending) :
    Unanimous fun r => w.cache.peek r.id.location = some r where
  held := by
    rintro r p hr ⟨o, hp⟩
    exact (hw.keeps _ r hr).held o p hp
  unique hr hq hl := by
    rw [hl, hq] at hr
    exact (Option.some.inj hr).symm

theorem Workspace.Resolving.reaches (hw : w.Resolving m.report path)
    (hr : w.cache.peek r.id.location = some r) (h : ReflTransGen Holds r q) :
    ReflTransGen m.Links r.id.location q.id.location := by
  induction h with
  | refl => exact .refl
  | tail hrq hp ih =>
      obtain ⟨o, hp⟩ := hp
      exact ih.tail (hw.links_of_held (hw.sound.unanimous.under hr hrq) hp)

theorem Memory.references_congr {m' : Memory} (h : ∀ l, m'.report l = m.report l) :
    m'.References = m.References := by
  funext id dep
  unfold Memory.References
  rw [h]

theorem Memory.References.links (h : m.References id dep) : m.Links id.location dep.location := by
  obtain ⟨hk, hdep⟩ := h
  exact (Memory.links_iff hk).mpr (List.mem_map.mpr ⟨dep, hdep, rfl⟩)

/-- What a result holds, it references. -/
theorem Workspace.Sound.references_of_holds (hw : w.Sound [])
    (hr : w.cache.peek r.id.location = some r) (h : r.Holds q) :
    w.outside.References r.id q.id := by
  obtain ⟨o, hq⟩ := h
  have hkeeps := hw.keeps _ r hr
  have hreported := hkeeps.reported (by simp)
  by_cases hk : r.id.kind = .project
  · obtain ⟨outcomes, hmade⟩ := hreported.made hk
    exact ⟨hk, hmade.declared ▸ (hkeeps.grounded.mayHold hq).declared⟩
  · unfold Resolution.Reported at hreported
    rw [if_neg hk] at hreported
    rw [hreported.references] at hq
    cases hq

theorem Workspace.Sound.references_of_held (hw : w.Sound [])
    (hr : w.cache.peek r.id.location = some r) (h : ReflTransGen Holds r q) :
    ReflTransGen w.outside.References r.id q.id := by
  induction h with
  | refl => exact .refl
  | tail hrp hp ih => exact ih.tail (hw.references_of_holds (hw.unanimous.under hr hrp) hp)

/-- What resolving a file brings to the map is held by its result. -/
theorem Fetched.holds_of_new (hf : Fetched [] id w (.ok r) w') (hq : w'.cache.peek n = some q)
    (hnew : w.made ≤ q.stamp) : ReflTransGen Holds r q := by
  obtain ⟨path, ht, -⟩ := hf.flight.cached n q hq hnew
  obtain ⟨o, p, hp, hpq⟩ := ht.holds
  cases List.mem_singleton.mp hp
  exact hpq

/-- A result in the map was there before, or is new and held. -/
theorem Fetched.peek_cases (hf : Fetched [] id w (.ok r) w') (hw : w.Sound [])
    (hq : w'.cache.peek n = some q) :
    w.cache.peek n = some q ∨ (w.made ≤ q.stamp ∧ ReflTransGen Holds r q) := by
  rcases hf.flight.elapsed.cache.peek_inv hw.tidy.lone hf.sound.tidy.lone hq with ⟨hp, -⟩ | hnew
  · exact Or.inl hp
  · exact Or.inr ⟨hnew, hf.holds_of_new hq hnew⟩

/-! ## Resolved references -/

theorem Workspace.Searching.not_busy (hw : w.Searching m []) (l : Location) : ¬ w.cache.Busy l := by
  rw [hw.busy l]
  simp [places]

/-- Between resolutions, what a resolved project references is resolved as well. The project holds
it, or was refused it, and then there is a way back. -/
theorem Workspace.Searching.resolved (hw : w.Searching m []) (hr : w.cache.peek n = some r)
    (hk : r.id.kind = .project) (hlink : m.Links n x) :
    ∃ q, w.cache.peek x = some q ∧ (r.Holds q ∨ ReflTransGen m.Links x n) := by
  by_cases hheld : ∃ o p, (o, p) ∈ r.references ∧ p.id.location = x
  · obtain ⟨o, p, hp, rfl⟩ := hheld
    exact ⟨p, (hw.sound.keeps n r hr).held o p hp, Or.inl ⟨o, hp⟩⟩
  · obtain ⟨dep, hdep, hplace⟩ := List.mem_map.mp (hw.declares hr hk hlink)
    have hback :=
      hw.explained n r x hr ⟨⟨dep, hdep, hplace⟩, fun o p hp hpx => hheld ⟨o, p, hp, hpx⟩⟩
    have hlinks : ReflTransGen m.Links x n := hback.lift id fun _ _ h => h.1
    rcases hback.cases_head with rfl | ⟨y, hy, -⟩
    · exact ⟨r, hr, Or.inr hlinks⟩
    · obtain ⟨q, hq⟩ := hy.2.1.resolve_left (hw.not_busy x)
      exact ⟨q, hq, Or.inr hlinks⟩

/-! ## Courses in which nothing changes -/

/-- Before anything is resolved there are no circles to tell of. -/
theorem Workspace.Quiet.searching (hw : w.Quiet) (hnone : ∀ l, w.cache.peek l = none)
    (htable : ∀ l, w.outside.report l = m.report l) : w.Searching m [] := by
  have hpeek : ∀ {l : Location} {r : Resolution}, w.cache.peek l ≠ some r := by
    intro l r hr
    cases (hnone l).symm.trans hr
  refine ⟨⟨⟨hw.tidy, htable, hw.idle.busy_iff⟩, hw.tidy, fun l r hr => absurd hr hpeek⟩, ?_,
    List.nodup_nil, List.isChain_nil⟩
  exact ⟨fun _ _ hr => absurd hr hpeek, fun _ _ _ hr => absurd hr hpeek,
    fun _ _ hr => absurd hr hpeek,
    fun _ _ hr => absurd hr hpeek⟩

theorem Steps.searching (h : Steps Memory.surroundings (.fetch id []) w (.fetched (.ok r)) w')
    (hid : id.WellFormed) (hw : w.Searching m []) : w'.Searching m [] := by
  obtain ⟨E, -, -, hfound⟩ := h.brings surroundings_cracksWithin (foundRule m) hid hw.sound
  exact (hfound hw (List.isChain_singleton _)).searching

theorem Fetches.searching (h : Fetches Memory.surroundings w w')
    (hw : w.Searching m []) : w'.Searching m [] :=
  h.keeps (fun _ _ _ _ hid hs hw => hs.searching hid hw) hw

/-- The dependencies of a script or project that are returned are an order of
what its result holds. -/
theorem Workspace.Searching.dependenciesOf (hw : w.Searching m []) (hid : id.WellFormed)
    (hk : id.kind.isResolvable = true) :
    ∃ r w', Act.dependenciesOf Memory.surroundings id w = .ok (.ok (dependencyOrder [r])) w' ∧
      Steps Memory.surroundings (.fetch id []) w (.fetched (.ok r)) w' ∧
        Lists [r] (dependencyOrder [r]) := by
  obtain ⟨r, w', h, hs⟩ := options_returns hid hk hw.tidy hw.not_busy
  have hf := hs.fetched_still hid hw.sound
  refine ⟨r, w', Act.bind_ok h rfl, hs,
    Resolution.dependencyOrder_lists hf.sound.unanimous fun q hq => ?_⟩
  rw [List.mem_singleton.mp hq, (hf.made r rfl).id]
  exact hf.peek

end

end FSharpWorkspace
