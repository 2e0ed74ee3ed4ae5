import FSharpWorkspace.Proofs.Circle.Tangle
import FSharpWorkspace.Proofs.Sequential.Resolve
import FSharpWorkspace.Proofs.Sequential.Total
/-!
# Circles found on a first search

What results say of circles when the table never changes (`Workspace.Charted`), and how a resolution
keeps it true. The heart of it is `Workspace.Searching.untouched`: when a project that ties its
tangle is asked for the first time, nothing of the tangle is resolved yet. For a resolved project
leads on to resolved ones up to a reference that was refused, and a refusal leaves a circle of
projects that were asked for behind, none of them the one that is asked for now.
-/

set_option autoImplicit false

namespace FSharpWorkspace

open Relation (ReflTransGen TransGen)

/-! ## Touched files -/

def Workspace.Touched (w : Workspace Memory) (n : Location) : Prop :=
  w.cache.Busy n ∨ ∃ r, w.cache.peek n = some r

def Workspace.Passes (m : Memory) (w : Workspace Memory) (n n' : Location) : Prop :=
  m.Links n n' ∧ w.Touched n ∧ w.Touched n'

theorem Workspace.Passes.mono {m : Memory} {w w' : Workspace Memory} {n n' : Location}
    (h : Workspace.Passes m w n n') (ht : ∀ x, w.Touched x → w'.Touched x) :
    Workspace.Passes m w' n n' :=
  ⟨h.1, ht _ h.2.1, ht _ h.2.2⟩

/-! ## What results say of circles -/

/-- What the results in the map say of the circles of the table `m`. -/
structure Workspace.Charted (m : Memory) (w : Workspace Memory) : Prop where
  /-- A circle that is remembered is one. -/
  ringed : ∀ n u, w.cache.peek n = some u → u.cycle ≠ [] → Encircled m.Links n u.cycle
  /-- From a file that was refused there was a way back. -/
  explained : ∀ n u x, w.cache.peek n = some u → u.Cuts x → ReflTransGen (Workspace.Passes m w) x n
  /-- A circle is remembered because of a reference that was refused, or that is
  on this very circle. -/
  because : ∀ n u, w.cache.peek n = some u → u.cycle ≠ [] →
    (∃ x, u.Cuts x) ∨ ∃ o p, (o, p) ∈ u.references ∧ n ∈ places p.cycle
  /-- A project that ties its tangle remembers a circle. -/
  told : ∀ n u, w.cache.peek n = some u → m.Ties n → u.cycle ≠ []

/-- The projects on `path` are being resolved over the table `report`, in a sound workspace. -/
structure Workspace.Resolving (report : Location → CrackReport) (path : List Identity)
    (w : Workspace Memory) : Prop
    extends Workspace.Nests report path w where
  sound : w.Sound []

/-- The projects on `path`, each of which references the next, are being resolved
over the table `m`. -/
structure Workspace.Searching (m : Memory) (path : List Identity) (w : Workspace Memory) : Prop
    extends Workspace.Resolving m.report path w, Workspace.Charted m w where
  nodup : (places path).Nodup
  chain : (places path).IsChain m.Links

section

variable {m : Memory} {path : List Identity} {w w' : Workspace Memory} {id : Identity}

theorem Workspace.Charted.fresh : (Workspace.fresh m).Charted m where
  ringed n u hu := by simp at hu
  explained n u x hu := by simp at hu
  because n u hu := by simp at hu
  told n u hu := by simp at hu

theorem Workspace.Charted.congr (h : w.Charted m) (hpeek : ∀ n, w'.cache.peek n = w.cache.peek n)
    (ht : ∀ n, w.Touched n → w'.Touched n) : w'.Charted m where
  ringed n u hu := h.ringed n u ((hpeek n).symm.trans hu)
  explained n u x hu hx :=
    (h.explained n u x ((hpeek n).symm.trans hu) hx).lift id fun _ _ hp => hp.mono ht
  because n u hu := h.because n u ((hpeek n).symm.trans hu)
  told n u hu := h.told n u ((hpeek n).symm.trans hu)

theorem Workspace.Resolving.fetched {a : Except (List Identity) Resolution}
    (hw : w.Resolving m.report path) (h : Fetched [] id w a w') : w'.Resolving m.report path where
  tidy := h.sound.tidy
  table l := (h.flight.elapsed.report l (by simp)).trans (hw.table l)
  busy x := (h.flight.elapsed.busy_iff x).trans (hw.busy x)
  sound := h.sound

/-- A project in the map declares all that the table makes it reference. -/
theorem Workspace.Resolving.declares (hw : w.Resolving m.report path) {n n' : Location}
    {u : Resolution} (hu : w.cache.peek n = some u) (hk : u.id.kind = .project) (h : m.Links n n') :
    n' ∈ places u.declared := by
  have hkeeps := hw.sound.keeps n u hu
  obtain ⟨outcomes, hmade⟩ := (hkeeps.reported (by simp)).made hk
  rw [hmade.declared, hw.table]
  exact (Memory.links_iff hk).mp (hkeeps.place ▸ h)

/-- What a result in the map holds is referenced. -/
theorem Workspace.Resolving.links_of_held (hw : w.Resolving m.report path) {n : Location}
    {u p : Resolution} {o : Option Location} (hu : w.cache.peek n = some u)
    (hp : (o, p) ∈ u.references) : m.Links n p.id.location := by
  rw [← Memory.links_congr hw.table]
  have hmay := (hw.sound.keeps n u hu).grounded.mayHold hp
  exact hw.sound.links_of_declared hu (List.mem_map.mpr ⟨p.id, hmay.declared, rfl⟩)

theorem Workspace.Resolving.reaches_of_trail (hw : w.Resolving m.report path) {l : Location}
    {roots : List (Option Location × Resolution)}
    (hroots : ∀ o r, (o, r) ∈ roots →
      w.cache.peek r.id.location = some r ∧ ReflTransGen m.Links l r.id.location)
    {way : List Location} {q : Resolution} (h : Resolution.Trail [] roots way q) :
    ReflTransGen m.Links l q.id.location := by
  induction h with
  | root hr _ => exact (hroots _ _ hr).2
  | under hr _ _ ih =>
      obtain ⟨hpeek, hreach⟩ := hroots _ _ hr
      exact ih fun o p hp => ⟨(hw.sound.keeps _ _ hpeek).held o p hp,
        hreach.tail (hw.links_of_held hpeek hp)⟩

/-- Resolving a file resolves only what is reached from it. -/
theorem Workspace.Resolving.reached (hw : w.Resolving m.report path)
    {a : Except (List Identity) Resolution} (hf : Fetched [] id w a w') {n : Location}
    {u : Resolution} (hu : w'.cache.peek n = some u) :
    w.cache.peek n = some u ∨ ReflTransGen m.Links id.location n := by
  have hw' := hw.fetched hf
  rcases hf.flight.elapsed.cache.peek_inv hw.sound.tidy.lone hf.sound.tidy.lone hu
    with ⟨hp, -⟩ | hfresh
  · exact Or.inl hp
  · obtain ⟨way, htrail, -⟩ := hf.flight.cached n u hu hfresh
    rw [← (hf.sound.keeps n u hu).place]
    cases a with
    | error members => exact absurd htrail not_trail_nil
    | ok r =>
        refine Or.inr (hw'.reaches_of_trail (fun o p hp => ?_) htrail)
        cases List.mem_singleton.mp hp
        rw [(hf.made r rfl).id]
        exact ⟨hf.peek, .refl⟩

/-- When a project that ties its tangle was not asked for yet, nothing of the tangle is resolved. -/
theorem Workspace.Searching.untouched (hw : w.Searching m path) {l : Location} (hl : m.Ties l)
    (hnew : ¬ w.Touched l) {x : Location} (hx : m.Tangled l x) : w.cache.peek x = none := by
  -- along a way from `x` to `l`: if `x` were resolved, the next project on the way would be too
  have key : ∀ x, ReflTransGen m.Links x l → m.Tangled l x → ∀ u, w.cache.peek x ≠ some u := by
    intro x hxl
    induction hxl using ReflTransGen.head_induction_on with
    | refl => exact fun _ u hu => hnew (Or.inr ⟨u, hu⟩)
    | @head x y hxy hyl ih =>
        intro hx u hu
        have hk := hl.project hx (hw.sound.keeps x u hu).wellFormed (hw.sound.keeps x u hu).place
        by_cases hheld : ∃ o p, (o, p) ∈ u.references ∧ p.id.location = y
        · obtain ⟨o, p, hp, rfl⟩ := hheld
          exact ih (hx.between (.single hxy) hyl) p ((hw.sound.keeps x u hu).held o p hp)
        · -- the reference was refused, and the way back from it avoids `l`
          obtain ⟨dep, hdep, hplace⟩ := List.mem_map.mp (hw.declares hu hk hxy)
          have hcut : u.Cuts y := ⟨⟨dep, hdep, hplace⟩, fun o p hp hpy => hheld ⟨o, p, hp, hpy⟩⟩
          have hback := hw.explained x u y hu hcut
          have hoff : ∀ n, w.Touched n → n ≠ l := by
            rintro n hn rfl
            exact hnew hn
          have hy : w.Touched y := by
            rcases hback.cases_head with rfl | ⟨z, hz, -⟩
            · exact Or.inr ⟨u, hu⟩
            · exact hz.2.1
          have hback' : ReflTransGen (m.LinksOff l) y x :=
            hback.lift id fun a b hab => ⟨hab.1, hoff a hab.2.1, hoff b hab.2.2⟩
          exact hl.through x hx (.head' ⟨hxy, hoff x (Or.inr ⟨u, hu⟩), hoff y hy⟩ hback')
  exact Option.eq_none_iff_forall_ne_some.mpr (key x hx.2 hx)

/-! ## Entering a project -/

theorem Workspace.Touched.claim {s : Serial} {c : Cache Resolution} (hw : w.cache.Lone)
    (hc : w.cache.Claims 0 id.location s id c) {n : Location} (h : w.Touched n) :
    Workspace.Touched { w with cache := c } n := by
  rcases h with hb | ⟨r, hr⟩
  · exact Or.inl ((hc.busy_iff n).mpr (Or.inl hb))
  · exact Or.inr ⟨r, (hc.peek hw n).trans hr⟩

theorem Workspace.Searching.claim {s : Serial} {c : Cache Resolution} (hw : w.Searching m path)
    (hid : id.WellFormed) (hc : w.cache.Claims 0 id.location s id c)
    (hchain : (places (path ++ [id])).IsChain m.Links) :
    Workspace.Searching m (path ++ [id]) { w with cache := c } where
  toResolving :=
    ⟨⟨hw.tidy.claim hid hc, hw.table, fun x => by
      rw [mem_places_concat, ← hw.busy x]
      exact hc.busy_iff x⟩, hw.sound.claim hid hc⟩
  toCharted := hw.toCharted.congr (hc.peek hw.sound.tidy.lone) fun _ => .claim hw.sound.tidy.lone hc
  nodup :=
    nodup_places_concat hw.nodup fun hm => hc.not_busy hw.sound.tidy.lone ((hw.busy _).mpr hm)
  chain := hchain

/-- Cracking a project while nothing changes tells what the table says. -/
theorem Workspace.Searching.cracks {l : Location} {report : CrackReport} (hw : w.Searching m path)
    (hx : Cracks l [] [] w report w') :
    w'.Searching m path ∧ report = m.report l ∧ w'.cache = w.cache := by
  have hsound := hw.sound.cracks hx
  obtain ⟨wₘ, hbefore, rfl, hafter⟩ := hx.moment
  have hcache : w'.cache = w.cache := hx.cache_eq
  have htable : ∀ x, wₘ.outside.report x = m.report x :=
    fun x => (hbefore.report x (by simp)).trans (hw.table x)
  refine ⟨⟨⟨⟨hsound.tidy, fun x => (hafter.report x (by simp)).trans (htable x), ?_⟩, hsound⟩, ?_,
    hw.nodup, hw.chain⟩,
    htable l, hcache⟩
  · rw [hcache]
    exact hw.busy
  · refine hw.toCharted.congr (fun n => by rw [hcache]) fun n hn => ?_
    unfold Workspace.Touched
    rw [hcache]
    exact hn

/-! ## Leaving a project -/

section Arrival

variable {s : Serial} {c : Cache Resolution} {r : Resolution}

/-- The way along the path to its end, from a project on it. -/
theorem Workspace.Searching.way (hw : w.Searching m (path ++ [id])) {x : Location}
    (hx : x ∈ places (path ++ [id])) : ReflTransGen (Workspace.Passes m w) x id.location := by
  have hchain : (places (path ++ [id])).IsChain (Workspace.Passes m w) :=
    hw.chain.imp_of_mem_imp fun a b ha hb hab =>
      ⟨hab, Or.inl ((hw.busy a).mpr ha), Or.inl ((hw.busy b).mpr hb)⟩
  exact reach_getLast hchain hx (by simp [places_concat])

/-- A result that arrives leaves circles charted if what it says of them is right. -/
theorem Workspace.Searching.arrive (hw : w.Searching m path) (hw' : w'.Searching m (path ++ [r.id]))
    (h : Arrives [] w s c w' r) (hring : r.cycle ≠ [] → Encircled m.Links r.id.location r.cycle)
    (hbecause : r.cycle ≠ [] → (∃ x, r.Cuts x) ∨ ∃ o p, (o, p) ∈ r.references ∧
      r.id.location ∈ places p.cycle) (htold : m.Ties r.id.location → r.cycle ≠ []) :
    (w'.arrive s r).Searching m path := by
  have hresolving := hw.toResolving.fetched (h.fetched rfl hw.sound hw'.sound)
  have htouched : ∀ n, w'.Touched n → (w'.arrive s r).Touched n := by
    rintro n (hb | ⟨u, hu⟩)
    · have hn := (hw'.busy n).mp hb
      rw [mem_places_concat] at hn
      rcases hn with hn | rfl
      · exact Or.inl ((hresolving.busy n).mpr hn)
      · exact Or.inr ⟨r, h.kept.peek_self hw'.sound⟩
    · exact Or.inr ⟨u, h.peek_of_peek hw'.sound hu⟩
  refine ⟨hresolving, ⟨?_, ?_, ?_, ?_⟩, hw.nodup, hw.chain⟩
  · intro n u hu hc
    rcases h.peek_cases hw'.sound hu with hp | ⟨rfl, rfl, -⟩
    · exact hw'.ringed n u hp hc
    · exact hring hc
  · intro n u x hu hx
    rcases h.peek_cases hw'.sound hu with hp | ⟨rfl, rfl, -⟩
    · exact (hw'.explained n u x hp hx).lift id fun _ _ hab => hab.mono htouched
    · -- what was refused is on the path
      have hmem : x ∈ places (path ++ [u.id]) := by
        rw [mem_places_concat, ← hw.busy x]
        exact (h.claim.busy_iff x).mp (h.explained x hx)
      exact (hw'.way hmem).lift id fun _ _ hab => hab.mono htouched
  · intro n u hu hc
    rcases h.peek_cases hw'.sound hu with hp | ⟨rfl, rfl, -⟩
    · exact hw'.because n u hp hc
    · exact hbecause hc
  · intro n u hu ht
    rcases h.peek_cases hw'.sound hu with hp | ⟨rfl, rfl, -⟩
    · exact hw'.told n u hp ht
    · exact htold ht

end Arrival

end

end FSharpWorkspace
