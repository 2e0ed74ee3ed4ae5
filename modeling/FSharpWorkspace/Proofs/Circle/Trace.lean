import FSharpWorkspace.Proofs.Circle.Losses
import FSharpWorkspace.Proofs.Circle.Ring
/-!
# Circles that can be traced

A result that is on a circle remembers its members. In the middle of a resolution some of them are
still in progress: `pend` relates a project in progress to the references that it is going to
declare. `Workspace.Traced S pend w` says that the members of every remembered circle within `S`
declare each other in the map, or are going to.

A change cannot break such a circle without dropping all of it, unless it drops a file that a
project in progress is going to declare (`Workspace.Traced.changes`). That project is refused by the
map when it arrives, so its result is lost. A resolution that loses no result for a project of `S`
(`Spares`) therefore keeps circles within `S` traced (`traceRule`).
-/

set_option autoImplicit false

namespace FSharpWorkspace

/-! ## Traced circles -/

/-- The map says that the file at `n` declares the one at `n'`, or `pend` says
that it is going to. -/
def Workspace.Points (w : Workspace Memory) (pend : Location → Location → Prop)
    (n n' : Location) : Prop :=
  (∃ r, w.cache.peek n = some r ∧ n' ∈ places r.declared) ∨ pend n n'

/-- The members of every circle within `S` that a result in the map remembers
point to each other. -/
def Workspace.Traced (S : Location → Prop) (pend : Location → Location → Prop)
    (w : Workspace Memory) : Prop :=
  ∀ l u, w.cache.peek l = some u → u.cycle ≠ [] → (∀ n ∈ places u.cycle, S n) →
    Encircled (w.Points pend) l u.cycle

/-- The files in progress are on the path. -/
def Workspace.Stacked (w : Workspace Memory) (path : List Identity) : Prop :=
  ∀ x, w.cache.Busy x → x ∈ places path

section

variable {w w' : Workspace Memory} {S : Location → Prop} {pend pend' : Location → Location → Prop}
  {E xs : List Location}

theorem Workspace.Points.mono {n n' : Location} (h : w.Points pend n n')
    (hpeek : ∀ r, w.cache.peek n = some r → w'.cache.peek n = some r)
    (hpend : pend n n' → pend' n n') :
    w'.Points pend' n n' := by
  rcases h with ⟨r, hr, hd⟩ | hp
  · exact Or.inl ⟨r, hpeek r hr, hd⟩
  · exact Or.inr (hpend hp)

theorem Workspace.Stacked.later {path : List Identity} (h : Elapsed E w w') (hs : w.Stacked path) :
    w'.Stacked path :=
  fun x hx => hs x (h.cache.was_busy hx).1

/-- A file that is claimed comes to the end of the path. -/
theorem Workspace.Stacked.claim {path : List Identity} {id : Identity} {s : Serial}
    {c : Cache Resolution} (hs : w.Stacked path) (hc : w.cache.Claims 0 id.location s id c) :
    Workspace.Stacked { w with cache := c } (path ++ [id]) := by
  intro x hb
  rw [mem_places_concat]
  exact ((hc.busy_iff x).mp hb).imp_left (hs x)

theorem Workspace.Traced.claim {l : Location} {id : Identity} {s : Serial} {c : Cache Resolution}
    (hl : w.cache.Lone) (hc : w.cache.Claims 0 l s id c) (hpend : ∀ n n', pend n n' → pend' n n')
    (ht : w.Traced S pend) : Workspace.Traced S pend' { w with cache := c } := by
  have hpeek := hc.peek hl
  intro n u hu hne hS
  refine (ht n u ((hpeek n).symm.trans hu) hne hS).imp fun x _ y _ hp =>
    hp.mono (fun v hv => ?_) (hpend x y)
  exact (hpeek x).trans hv

/-- Whoever leads to a dropped file along declared references is dropped as well, as long as nothing
that is pending is dropped. -/
theorem Changes.drops {pending : List Location} (hw : w.Sound pending) (h : Changes xs w w')
    (hpend : ∀ n n', pend n n' → n' ∉ xs) {x y : Location}
    (hxy : Relation.ReflTransGen (w.Points pend) x y) (hy : y ∈ xs) : x ∈ xs := by
  induction hxy using Relation.ReflTransGen.head_induction_on with
  | refl => exact hy
  | @head n n' hn _ ih =>
      rcases hn with ⟨r, hr, hd⟩ | hp
      · by_contra hx
        have hr' := (h.peek hw.tidy.lone n r).mpr ⟨hr, hx⟩
        have hdep := h.closed n' ih n r hr'
        have hne : r.id.location ≠ n' := by
          rw [(hw.keeps n r hr).place]
          rintro rfl
          exact hx ih
        rw [Resolution.dependsOn, if_neg hne, isAmong_iff.mpr hd] at hdep
        simp at hdep
      · exact absurd ih (hpend n n' hp)

/-- A change keeps circles traced, as long as it drops nothing that is pending. -/
theorem Workspace.Traced.changes {pending : List Location} (hw : w.Sound pending)
    (h : Changes xs w w') (hpend : ∀ n n', pend n n' → n' ∉ xs)
    (ht : w.Traced S pend) : w'.Traced S pend := by
  -- every member leads to every other, so none is dropped unless the one that
  -- remembers the circle is
  intro l u hu hc hS
  obtain ⟨hu, hl⟩ := (h.peek hw.tidy.lone l u).mp hu
  have henc := ht l u hu hc hS
  refine henc.imp fun n hn n' _ hp => hp.mono (fun r hr => ?_) id
  refine (h.peek hw.tidy.lone n r).mpr ⟨hr, fun hx => hl ?_⟩
  exact h.drops hw hpend (henc.ring.transGen henc.mem hn).to_reflTransGen hx

theorem Workspace.Traced.cracks {l : Location} {ys : List Location} {report : CrackReport}
    (hw : w.Sound []) (h : Cracks l xs ys w report w') (hpend : ∀ n n', pend n n' → n' ∉ xs ++ ys)
    (ht : w.Traced S pend) :
    w'.Traced S pend := by
  obtain ⟨wₘ, hx, -, hy⟩ := h.moment
  have hxs : ∀ n n', pend n n' → n' ∉ xs :=
    fun n n' hp hm => hpend n n' hp (List.mem_append_left _ hm)
  have hys : ∀ n n', pend n n' → n' ∉ ys :=
    fun n n' hp hm => hpend n n' hp (List.mem_append_right _ hm)
  exact (ht.changes hw hx hxs).changes (hw.changes_nil hx) hy hys

end

/-! ## Arrival -/

section Arrival

variable {E : List Location} {w w₁ : Workspace Memory} {s : Serial} {c : Cache Resolution}
  {r : Resolution} {S : Location → Prop} {pend : Location → Location → Prop}

/-- A kept result declares nothing that was invalidated in its flight. -/
theorem Unaffected.declared_avoids (h : Unaffected E w s c w₁ r) {n : Location}
    (hn : n ∈ places r.declared) :
    n ∉ E := by
  intro hE
  have hd := h.independent h.self_entered hE
  have hne : r.id.location ≠ n := fun he => h.avoids (he ▸ hE)
  rw [Resolution.dependsOn, if_neg hne, isAmong_iff.mpr hn] at hd
  simp at hd

theorem Unaffected.peek_self (h : Unaffected E w s c w₁ r) (hw₁ : w₁.Sound []) :
    (w₁.arrive s r).cache.peek r.id.location = some r := by
  rw [h.toArrives.peek_self hw₁ h.avoids, h.fresh]
  rfl

/-- While a project is in progress, all that it is going to declare is pending,
if it is one of `S`. -/
def Pending (S : Location → Prop) (pend : Location → Location → Prop) (r : Resolution)
    (n n' : Location) : Prop :=
  pend n n' ∨ (S n ∧ n = r.id.location ∧ n' ∈ places r.declared)

/-- As long as its result is kept, nothing that a project is going to declare was
invalidated in its flight. -/
theorem Pending.avoids {n n' : Location} (h : Pending S pend r n n')
    (hkept : S r.id.location → Unaffected E w s c w₁ r)
    (hE : ∀ n n', pend n n' → n' ∉ E) : n' ∉ E := by
  rcases h with hp | ⟨hS, rfl, hd⟩
  · exact hE n n' hp
  · exact (hkept hS).declared_avoids hd

/-- When a project arrives, what was pending for it is declared in the map. -/
theorem Arrives.traced (h : Arrives E w s c w₁ r) (hw₁ : w₁.Sound [])
    (hkept : S r.id.location → Unaffected E w s c w₁ r) (ht : w₁.Traced S (Pending S pend r))
    (hself : r.cycle ≠ [] → (∀ n ∈ places r.cycle, S n) →
      Encircled (w₁.Points (Pending S pend r)) r.id.location r.cycle) :
    (w₁.arrive s r).Traced S pend := by
  -- what was pending for the project is declared by the result that arrived
  have hpoints : ∀ n n', w₁.Points (Pending S pend r) n n' → (w₁.arrive s r).Points pend n n' := by
    rintro n n' (⟨u, hu, hd⟩ | hp | ⟨hS, rfl, hd⟩)
    · exact Or.inl ⟨u, h.peek_of_peek hw₁ hu, hd⟩
    · exact Or.inr hp
    · exact Or.inl ⟨r, (hkept hS).peek_self hw₁, hd⟩
  intro l u hu hc hS
  rcases h.peek_cases hw₁ hu with hp | ⟨rfl, rfl, -⟩
  · exact (ht l u hp hc hS).imp fun n _ n' _ => hpoints n n'
  · exact (hself hc hS).imp fun n _ n' _ => hpoints n n'

end Arrival

/-! ## The rule -/

/-- Resolving a file without losing a result of `S` keeps circles within `S` traced, and a refusal
tells of a circle through the project that was refused. Since `w₀` nothing was lost. -/
def TracesFile (S : Location → Prop) (E : List Location) (id : Identity) (path : List Identity)
    (w : Workspace Memory) (a : Except (List Identity) Resolution) (w' : Workspace Memory) : Prop :=
  Accounted w w' ∧ ∀ (w₀ : Workspace Memory) (pend : Location → Location → Prop), Accounted w₀ w →
    Spares S w₀ w' → w.Stacked path →
      (places (path ++ [id])).IsChain (fun n n' => S n → pend n n') →
    w.Traced S pend → (∀ n n', pend n n' → n' ∉ E) →
    w'.Traced S pend ∧ ∀ members, a = .error members → (∀ n ∈ places members, S n) →
      ∀ z, path.getLast? = some z → Encircled pend z.location members

/-- The same for the references of a project. -/
def TracesReferences (S : Location → Prop) (E : List Location) (id : Identity)
    (path : List Identity) (deps : List Identity) (w : Workspace Memory) (outcomes : Outcomes)
    (w' : Workspace Memory) : Prop :=
  Accounted w w' ∧ ∀ (w₀ : Workspace Memory) (pend : Location → Location → Prop), Accounted w₀ w →
    Spares S w₀ w' → path.getLast? = some id → w.Stacked path →
    (places path).IsChain (fun n n' => S n → pend n n') →
    (∀ dep ∈ deps, S id.location → pend id.location dep.location) →
    w.Traced S pend → (∀ n n', pend n n' → n' ∉ E) →
    w'.Traced S pend ∧ ∀ dep members, (dep, .error members) ∈ outcomes →
      (∀ n ∈ places members, S n) →
      Encircled pend id.location members

theorem isChain_places_concat {R : Location → Location → Prop} {path : List Identity}
    {id dep : Identity} (hlast : path.getLast? = some id) (h : (places path).IsChain R)
    (hR : R id.location dep.location) :
    (places (path ++ [dep])).IsChain R := by
  rw [places_concat, List.isChain_append]
  refine ⟨h, List.isChain_singleton _, fun x hx y hy => ?_⟩
  rw [places_getLast? hlast] at hx
  obtain rfl : id.location = x := by simpa using hx
  obtain rfl : dep.location = y := by simpa using hy
  exact hR

theorem traceRule (S : Location → Prop) :
    ResolveRule (fun _ => True) (TracesFile S) (TracesReferences S) where
  ready hw _ _ := ⟨.refl hw, fun w₀ pend _ _ _ _ ht _ => ⟨ht, fun members hm => by cases hm⟩⟩
  refused hw _ hb := by
    refine ⟨.refl hw, fun w₀ pend _ _ hs hchain ht _ => ⟨ht, fun members hm hS z hz => ?_⟩⟩
    cases hm
    exact (circle_encircled hz (hs _ hb) hchain).imp fun n hn n' _ hp => hp (hS n hn)
  leaf hw hid hk harr hr := by
    have hw₀ := hw.claim harr.wellFormed harr.claim
    refine ⟨harr.accounted hw₀ ((Accounted.refl hw).claim hw harr.claim) fun hp =>
      absurd (hr.id ▸ hp) hk, ?_⟩
    refine fun w₀ pend _ _ _ _ ht _ => ⟨?_, fun members hm => by cases hm⟩
    exact harr.traced hw₀ (fun _ => harr.kept) (ht.claim hw.tidy.lone harr.claim fun _ _ => Or.inl)
      fun hne => absurd hr.cycle hne
  project := by
    intro E xs ys id path w w₁ w₂ s c report outcomes r hw hid hk _ _ hx hf hq harr hmade hrid
    subst hrid
    obtain ⟨hacc, hq⟩ := hq
    refine ⟨harr.accounted_project hw hf.sound hk hx hf.flight.elapsed hacc, ?_⟩
    intro w₀ pend h₀ hspares hs hchain ht hE
    refine ⟨?_, fun members hm => by cases hm⟩
    -- if the project is one of `S` its result is kept, and then nothing that it declares was
    -- dropped in its flight
    have hkept : S r.id.location → Unaffected (xs ++ ys ++ E) w s c w₂ r :=
      fun hS => harr.unaffected hw hf.sound hk hx h₀ hacc hS hspares
    have hw₀ := hw.claim hid harr.claim
    have hw₁ := hw₀.cracks hx
    have hpend : ∀ n n', Pending S pend r n n' → n' ∉ xs ++ ys ++ E :=
      fun n n' hp => hp.avoids hkept hE
    -- the invariant is carried from the claim over the crack and the references to the arrival
    have ht₁ := (ht.claim hw.tidy.lone harr.claim fun _ _ => Or.inl).cracks hw₀ hx
      fun n n' hp hm => hpend n n' hp (List.mem_append_left _ hm)
    have hs₁ : w₁.Stacked (path ++ [r.id]) := (hs.claim harr.claim).later hx.elapsed
    have h₁ : Accounted w₀ w₁ :=
      (h₀.claim hw harr.claim).trans hw₀ hw₁ hx.elapsed (hx.accounted hw₀ hid hk)
    obtain ⟨ht₂, herr⟩ :=
      hq w₀ (Pending S pend r) h₁ (harr.spares_before hf.sound hkept hspares) (by simp) hs₁
      (hchain.imp fun _ _ h hS => Or.inl (h hS))
      (fun dep hd hS => Or.inr ⟨hS, rfl, List.mem_map.mpr ⟨dep, hmade.declared ▸ hd, rfl⟩⟩) ht₁
      fun n n' hp hm => hpend n n' hp (List.mem_append_right _ hm)
    refine harr.traced hf.sound hkept ht₂ fun hne hS => hmade.encircled (fun dep hd => ?_)
      (fun o p hp hc hr => ?_) hne
    · exact (herr dep _ hd hS).imp fun _ _ _ _ hn => Or.inr hn
    · -- the circle passes through the project, so it is one of `S`, and what it holds is in the map
      have hself := hS _ hr
      rw [← hc] at hne hS ⊢
      exact ht₂ _ p ((hkept hself).held hp) hne hS
  nil hw := ⟨.refl hw, fun w₀ pend _ _ _ _ _ _ ht _ => ⟨ht, fun dep members hm => by cases hm⟩⟩
  cons := by
    intro E E' id path dep deps w w₁ w' a outcomes hw hdep _ hf hP hf' hQ
    obtain ⟨hacc, hP⟩ := hP
    obtain ⟨hacc', hQ⟩ := hQ
    refine ⟨hacc.trans hf.sound hf'.sound hf'.flight.elapsed hacc', ?_⟩
    intro w₀ pend h₀ hspares hlast hs hchain hdeps ht hE
    have hE₁ : ∀ n n', pend n n' → n' ∉ E :=
      fun n n' hp hm => hE n n' hp (List.mem_append_left _ hm)
    have hE₂ : ∀ n n', pend n n' → n' ∉ E' :=
      fun n n' hp hm => hE n n' hp (List.mem_append_right _ hm)
    have h₁ := h₀.trans hw hf.sound hf.flight.elapsed hacc
    obtain ⟨ht₁, herr₁⟩ :=
      hP w₀ pend h₀ (hspares.earlier hf.sound hf'.sound h₁ hf'.flight.elapsed hacc') hs
      (isChain_places_concat hlast hchain (hdeps dep (by simp))) ht hE₁
    obtain ⟨ht', herr⟩ := hQ w₀ pend h₁ hspares hlast (hs.later hf.flight.elapsed) hchain
      (fun d hd => hdeps d (List.mem_cons_of_mem _ hd)) ht₁ hE₂
    refine ⟨ht', fun d members hm hS => ?_⟩
    rcases List.mem_cons.mp hm with he | hm
    · cases he
      exact herr₁ members rfl hS id hlast
    · exact herr d members hm hS

end FSharpWorkspace
