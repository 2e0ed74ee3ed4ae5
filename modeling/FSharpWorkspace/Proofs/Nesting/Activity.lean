import FSharpWorkspace.Proofs.Cache.Cascade
/-!
# Suppliers within suppliers

A supplier may use the cache that runs it. So at any moment a single thread is in the middle of some
suppliers, each started by the one before it: an `Activity` is the cache together with these runs.
An `Event` is what the thread does next. A program may decide by the answers what to do, and a panic
may be caught by any `get` on its way or by none, so the programs of a single thread lead to just
those activities that some sequence of events leads to (`Reached`).

Each run remembers what was invalidated since it started (`Run.since`). That is no part of the
cache. The cache keeps marks, on the entries of its map only, and it tells the runs of one file
apart by serials. `Activity.Sound` says how the two agree, and `Step.sound` that every event keeps
them in agreement.
-/

set_option autoImplicit false

namespace FSharpWorkspace.Cache

variable {ν : Type}

/-! ## Activities and events -/

/-- A supplier that is running. -/
structure Run where
  id : Identity
  /-- The serial of the entry that it computes. -/
  serial : Serial
  /-- The files invalidated since it started, in their order. -/
  since : List Location
deriving Repr

def Run.note (ls : List Location) (r : Run) : Run := { r with since := r.since ++ ls }

@[simp] theorem Run.note_nil (r : Run) : r.note [] = r := by simp [Run.note]

theorem Run.note_note (ls ls' : List Location) (r : Run) :
    (r.note ls).note ls' = r.note (ls ++ ls') := by
  simp [Run.note]

/-- A cache, and the suppliers that are running, the innermost first. -/
structure Activity (ν : Type) where
  cache : Cache ν
  runs : List Run

/-- What a thread does next. To look at values or entries is no event, for it changes nothing. -/
inductive Event (ν : Type) where
  /-- It asks for a file, and if the value is not there starts a supplier for it. -/
  | get (id : Identity)
  /-- It has an entry made for a file. -/
  | keep (id : Identity)
  | invalidate (l : Location)
  /-- The innermost supplier returns a value. It is stale for the files that `stale` says. -/
  | returns (value : ν) (stale : ν → Location → Bool)
  /-- The innermost supplier panics. -/
  | panics

/-- The files that an event invalidates. -/
def Event.lost : Event ν → List Location
  | invalidate l => [l]
  | _ => []

def lost (events : List (Event ν)) : List Location := events.flatMap Event.lost

namespace Activity

/-- The activity after an event. Nothing returns or panics if no supplier runs, and a thread that
would wait does not go on. -/
def after (me : Thread) (σ : Activity ν) : Event ν → Option (Activity ν)
  | .get id =>
    match σ.cache.start me id with
    | (.ready _, c) => some { σ with cache := c }
    | (.refused _, c) => some { σ with cache := c }
    | (.claimed s id, c) => some ⟨c, ⟨id, s, []⟩ :: σ.runs⟩
    | (.blocked _, _) => none
  | .keep id => some { σ with cache := (σ.cache.getOrCreate id).2 }
  | .invalidate l => some ⟨σ.cache.invalidate l, σ.runs.map (·.note [l])⟩
  | .returns v stale =>
    match σ.runs with
    | [] => none
    | r :: outer => some ⟨σ.cache.finish r.serial v stale, outer⟩
  | .panics =>
    match σ.runs with
    | [] => none
    | r :: outer => some ⟨σ.cache.abandon r.serial, outer⟩

/-- The activity after some events. -/
def run (me : Thread) : List (Event ν) → Activity ν → Option (Activity ν)
  | [], σ => some σ
  | event :: events, σ => (σ.after me event).bind (run me events)

/-- Some program on a fresh cache leads to `σ`. -/
def Reached (me : Thread) (σ : Activity ν) : Prop := ∃ events, run me events ⟨.empty, []⟩ = some σ

theorem run_cons {me : Thread} {event : Event ν} {events : List (Event ν)} {σ σ' : Activity ν} :
    run me (event :: events) σ = some σ' ↔ ∃ σ₁, σ.after me event = some σ₁ ∧
      run me events σ₁ = some σ' :=
  Option.bind_eq_some_iff

theorem run_append {me : Thread} {events events' : List (Event ν)} {σ σ' : Activity ν} :
    run me (events ++ events') σ = some σ' ↔ ∃ σ₁, run me events σ = some σ₁ ∧
      run me events' σ₁ = some σ' := by
  induction events generalizing σ with
  | nil => simp [run]
  | cons event events ih =>
      rw [List.cons_append, run_cons]
      simp only [run_cons, ih]
      constructor
      · rintro ⟨σ₁, h₁, σ₂, h₂, h⟩
        exact ⟨σ₂, ⟨σ₁, h₁, h₂⟩, h⟩
      · rintro ⟨σ₂, ⟨σ₁, h₁, h₂⟩, h⟩
        exact ⟨σ₁, h₁, σ₂, h₂, h⟩

theorem Reached.run {me : Thread} {events : List (Event ν)} {σ σ' : Activity ν} (hσ : Reached me σ)
    (h : run me events σ = some σ') : Reached me σ' := by
  obtain ⟨before, hbefore⟩ := hσ
  exact ⟨before ++ events, run_append.mpr ⟨σ, hbefore, h⟩⟩

theorem Reached.start (me : Thread) : Reached me (⟨.empty, []⟩ : Activity ν) := ⟨[], rfl⟩

/-! ### A supplier is a program of its own

What runs further out has no part in what a supplier does. It only notes what is invalidated. -/

theorem after_outer {me : Thread} {event : Event ν} {c c' : Cache ν} {runs runs' : List Run}
    (h : after me ⟨c, runs⟩ event = some ⟨c', runs'⟩) (outer : List Run) :
    after me ⟨c, runs ++ outer⟩ event = some ⟨c', runs' ++ outer.map (·.note event.lost)⟩ := by
  cases event with
  | get id =>
      rcases hs : c.start me id with ⟨answer, c₁⟩
      simp only [after, hs] at h ⊢
      cases answer with
      | ready v =>
          cases h
          simp [Event.lost]
      | refused id' =>
          cases h
          simp [Event.lost]
      | claimed s id' =>
          cases h
          simp [Event.lost]
      | blocked s => cases h
  | keep id =>
      cases h
      simp [after, Event.lost]
  | invalidate l =>
      cases h
      simp [after, Event.lost]
  | returns v stale =>
      cases runs with
      | nil => cases h
      | cons r runs =>
          cases h
          simp [after, Event.lost]
  | panics =>
      cases runs with
      | nil => cases h
      | cons r runs =>
          cases h
          simp [after, Event.lost]

theorem run_outer {me : Thread} {events : List (Event ν)} {c c' : Cache ν} {runs runs' : List Run}
    (h : run me events ⟨c, runs⟩ = some ⟨c', runs'⟩) (outer : List Run) :
    run me events ⟨c, runs ++ outer⟩ = some ⟨c', runs' ++ outer.map (·.note (lost events))⟩ := by
  induction events generalizing c runs outer with
  | nil =>
      cases h
      simp [run, lost]
  | cons event events ih =>
      obtain ⟨⟨c₁, runs₁⟩, h₁, hrest⟩ := run_cons.mp h
      refine run_cons.mpr ⟨_, after_outer h₁ outer, ?_⟩
      rw [ih hrest]
      simp [lost, Run.note_note, Function.comp_def]

end Activity

/-! ## What the entries say of a run -/

/-- The entry `e` is the one that `r` computes. It is in the map until its file is invalidated, and
so long it is marked with all that was invalidated. -/
structure Computes (c : Cache ν) (me : Thread) (r : Run) (e : Entry ν) : Prop where
  entry : c.entries[r.serial]? = some e
  id : e.id = r.id
  listed : e.listed = true ↔ r.id.location ∉ r.since
  state : ∃ marks, e.state = .inProgress me marks ∧ (e.listed = true → marks = r.since)

/-- A thread owns what it computes, and waits for nobody. -/
def waitsOf (me : Thread) (runs : List Run) : WaitGraph := ⟨runs.map fun r => (r.serial, me), []⟩

theorem filter_waitsOf (me : Thread) {runs : List Run} {s : Serial} (h : s ∉ runs.map (·.serial)) :
    (waitsOf me runs).owners.filter (·.1 ≠ s) = (waitsOf me runs).owners := by
  refine List.filter_eq_self.mpr fun a ha => ?_
  obtain ⟨r, hr, rfl⟩ := List.mem_map.mp ha
  simpa using fun hs => h (List.mem_map.mpr ⟨r, hr, hs⟩)

theorem own_waitsOf (me : Thread) {runs : List Run} {r : Run} (h : r.serial ∉ runs.map (·.serial)) :
    (waitsOf me runs).own r.serial me = waitsOf me (r :: runs) := by
  unfold WaitGraph.own
  rw [filter_waitsOf me h]
  rfl

theorem disown_waitsOf (me : Thread) {runs : List Run} {r : Run}
    (h : r.serial ∉ runs.map (·.serial)) :
    (waitsOf me (r :: runs)).disown r.serial = waitsOf me runs := by
  have hrest := filter_waitsOf me h
  simpa [WaitGraph.disown, waitsOf] using hrest

theorem waitsOf_note (me : Thread) (runs : List Run) (ls : List Location) :
    waitsOf me (runs.map (·.note ls)) = waitsOf me runs := by
  simp [waitsOf, Run.note, Function.comp_def]

/-- The cache agrees with what the thread is doing. -/
structure Activity.Sound (me : Thread) (σ : Activity ν) : Prop where
  lone : σ.cache.Lone
  computes : ∀ r ∈ σ.runs, ∃ e, σ.cache.Computes me r e
  /-- Whatever is in progress, in the map or not, is what some run computes. -/
  ran : ∀ (s : Serial) e owner marks, σ.cache.entries[s]? = some e →
    e.state = .inProgress owner marks →
    ∃ r ∈ σ.runs, r.serial = s
  apart : (σ.runs.map (·.serial)).Nodup
  /-- An outer run started earlier, so it saw whatever an inner run saw invalidated. -/
  nested : σ.runs.Pairwise fun r outer => r.since ⊆ outer.since
  waits : σ.cache.waits = waitsOf me σ.runs

section

variable {me : Thread} {σ σ' : Activity ν} {c : Cache ν} {r : Run} {e : Entry ν}

theorem Computes.note (h : c.Computes me r e) (l : Location) :
    (c.invalidate l).Computes me (r.note [l]) (lose l e) where
  entry := by
    show (c.invalidate l).entries[r.serial]? = _
    rw [getElem?_invalidate, h.entry]
    rfl
  id := (lose_id l e).trans h.id
  listed := by
    rw [lose_listed, h.listed, h.id]
    simp [Run.note, List.mem_append, not_or]
  state := by
    obtain ⟨marks, hs, hmarks⟩ := h.state
    rw [lose_inProgress hs]
    split
    · next hl => exact ⟨_, rfl, fun _ => by rw [hmarks ((lose_listed l e).mp hl).1]; rfl⟩
    · next hl => exact ⟨marks, rfl, fun hl' => absurd hl' hl⟩

theorem Computes.holds (h : c.Computes me r e) (hr : r.id.location ∉ r.since) :
    c.Holds r.id.location r.serial e :=
  ⟨h.entry, h.listed.mpr hr, h.id ▸ rfl⟩

theorem Computes.state_of_notMem (h : c.Computes me r e) (hr : r.id.location ∉ r.since) :
    e.state = .inProgress me r.since := by
  obtain ⟨marks, hs, hmarks⟩ := h.state
  rw [hs, hmarks (h.listed.mpr hr)]

theorem Activity.Sound.owned (hσ : σ.Sound me) : σ.cache.Owned me := by
  intro s e owner marks he hs
  obtain ⟨r, hr, rfl⟩ := hσ.ran s e owner marks he hs
  obtain ⟨f, hf⟩ := hσ.computes r hr
  obtain ⟨marks', hs', -⟩ := hf.state
  obtain rfl := Option.some.inj (he.symm.trans hf.entry)
  cases hs.symm.trans hs'
  rfl

theorem Activity.Sound.start (me : Thread) : Activity.Sound me (⟨.empty, []⟩ : Activity ν) where
  lone l s e t f h := by simp [Cache.empty, Holds] at h
  computes r hr := by cases hr
  ran s e owner marks he := by simp [Cache.empty] at he
  apart := by simp
  nested := .nil
  waits := rfl

/-- The entry of a run is neither uncomputed nor done. -/
theorem Activity.Sound.serial_ne (hσ : σ.Sound me) (hr : r ∈ σ.runs) {s : Serial}
    (hs : ∀ e owner marks, σ.cache.entries[s]? = some e → e.state ≠ .inProgress owner marks) :
    r.serial ≠ s := by
  rintro rfl
  obtain ⟨e, he⟩ := hσ.computes r hr
  obtain ⟨marks, hst, -⟩ := he.state
  exact hs e me marks he.entry hst

end

/-! ## Steps -/

/-- The cache after the entry with serial `s` stopped being computed. -/
def release (c : Cache ν) (s : Serial) (state : EntryState ν) : Cache ν :=
  { c.setState s state with waits := c.waits.disown s }

/-- What an event does to an activity in which cache and runs agree, with the files
that it invalidates. -/
inductive Step (me : Thread) : Activity ν → List Location → Activity ν → Prop where
  | stay (σ : Activity ν) : Step me σ [] σ
  /-- An entry is made for a file that has none. -/
  | keep {σ : Activity ν} {id : Identity} : (∀ s e, ¬ σ.cache.Holds id.location s e) →
      Step me σ []
        { σ with cache := { σ.cache with entries := σ.cache.entries ++ [⟨id, true, .uncomputed⟩] } }
  | claim {σ : Activity ν} {l : Location} {s : Serial} {id : Identity} {c : Cache ν} :
      σ.cache.Claims me l s id c → c.waits = σ.cache.waits.own s me →
        Step me σ [] ⟨c, ⟨id, s, []⟩ :: σ.runs⟩
  | invalidate (σ : Activity ν) (l : Location) :
      Step me σ [l] ⟨σ.cache.invalidate l, σ.runs.map (·.note [l])⟩
  /-- The innermost supplier ends, whether it returns or panics. -/
  | leave {c : Cache ν} {r : Run} {outer : List Run} {state : EntryState ν} :
      (∀ owner marks, state ≠ .inProgress owner marks) →
        Step me ⟨c, r :: outer⟩ [] ⟨c.release r.serial state, outer⟩

theorem getOrCreate_waits (c : Cache ν) (id : Identity) : (c.getOrCreate id).2.waits = c.waits := by
  unfold getOrCreate
  split <;> rfl

theorem request_waits {c c' : Cache ν} {me : Thread} {id id' : Identity} {s s' : Serial}
    (h : c.request me s id = (.claimed s' id', c')) : c'.waits = c.waits.own s' me := by
  unfold request at h
  split at h
  · cases h
  · cases h
    rfl
  · split at h
    · cases h
    · cases h

theorem start_waits {c c' : Cache ν} {me : Thread} {id id' : Identity} {s : Serial}
    (h : c.start me id = (.claimed s id', c')) : c'.waits = c.waits.own s me := by
  rw [← getOrCreate_waits c id]
  exact request_waits h

section

variable {me : Thread} {σ σ' : Activity ν} {ls : List Location}

theorem Step.of_after {event : Event ν} (hσ : σ.Sound me) (h : σ.after me event = some σ') :
    Step me σ event.lost σ' := by
  obtain ⟨c, runs⟩ := σ
  cases event with
  | get id =>
      rcases start_cases hσ.lone hσ.owned id
        with ⟨v, hs, -⟩ | ⟨s, e, hs, -⟩ | ⟨s, id', c', hs, hc, -⟩
      · simp only [Activity.after, hs, Option.some.injEq] at h
        exact h ▸ .stay _
      · simp only [Activity.after, hs, Option.some.injEq] at h
        exact h ▸ .stay _
      · simp only [Activity.after, hs, Option.some.injEq] at h
        exact h ▸ .claim hc (start_waits hs)
  | keep id =>
      cases h
      cases hs : c.serial? id.location with
      | some s =>
          have hc : (c.getOrCreate id).2 = c := by simp [getOrCreate, hs]
          rw [hc]
          exact .stay _
      | none =>
          have hc : (c.getOrCreate id).2 =
              { c with entries := c.entries ++ [⟨id, true, .uncomputed⟩] } := by
            simp [getOrCreate, hs]
          rw [hc]
          exact .keep ((serial?_eq_none c id.location).mp hs)
  | invalidate l =>
      cases h
      exact .invalidate _ l
  | returns v stale =>
      cases runs with
      | nil => cases h
      | cons r outer =>
          cases h
          exact .leave (handedIn_ne_inProgress stale v (c.stateAt r.serial))
  | panics =>
      cases runs with
      | nil => cases h
      | cons r outer =>
          cases h
          exact .leave (by simp)

/-! ## Every step keeps cache and runs in agreement -/

/-- An entry of a longer list is an old one, or the last. -/
theorem getElem?_concat_cases {c : Cache ν} {e f : Entry ν} {s : Serial}
    (h : (c.entries ++ [e])[s]? = some f) :
    c.entries[s]? = some f ∨ (s = c.entries.length ∧ f = e) := by
  rcases Nat.lt_or_ge s c.entries.length with hlt | hge
  · rw [List.getElem?_append_left hlt] at h
    exact Or.inl h
  · rw [List.getElem?_append_right hge] at h
    obtain ⟨hs, rfl⟩ := List.getElem?_eq_some_iff.mp h
    have hle : s ≤ c.entries.length := Nat.le_of_sub_eq_zero (Nat.lt_one_iff.mp hs)
    exact Or.inr ⟨Nat.le_antisymm hle hge, by simp⟩

theorem getElem?_concat_of_some {c : Cache ν} {e f : Entry ν} {s : Serial}
    (h : c.entries[s]? = some f) :
    (c.entries ++ [e])[s]? = some f := by
  obtain ⟨hlt, -⟩ := List.getElem?_eq_some_iff.mp h
  rw [List.getElem?_append_left hlt, h]

theorem Lone.concat {c : Cache ν} (hc : c.Lone) {id : Identity}
    (h : ∀ s e, ¬ c.Holds id.location s e) :
    Lone { c with entries := c.entries ++ [⟨id, true, .uncomputed⟩] } := by
  have old : ∀ l s e, Holds { c with entries := c.entries ++ [⟨id, true, .uncomputed⟩] } l s e →
      c.Holds l s e ∨ (s = c.entries.length ∧ l = id.location) := by
    rintro l s e ⟨he, hl, rfl⟩
    rcases getElem?_concat_cases he with he | ⟨rfl, rfl⟩
    · exact Or.inl ⟨he, hl, rfl⟩
    · exact Or.inr ⟨rfl, rfl⟩
  intro l s e t f he hf
  rcases old l s e he with he | ⟨rfl, rfl⟩
  · rcases old l t f hf with hf | ⟨rfl, rfl⟩
    · exact hc l s e t f he hf
    · exact absurd he (h s e)
  · rcases old _ t f hf with hf | ⟨rfl, -⟩
    · exact absurd hf (h t f)
    · rfl

theorem getElem?_release_ne (c : Cache ν) {s t : Serial} (state : EntryState ν) (h : s ≠ t) :
    (c.release s state).entries[t]? = c.entries[t]? :=
  getElem?_setState_ne c state h

/-- A claim adds a run. The serial is not that of another run, whose entry would be in progress. -/
theorem Activity.Sound.claim {l : Location} {s : Serial} {id : Identity} {c : Cache ν}
    (hσ : σ.Sound me) (hc : σ.cache.Claims me l s id c) (hw : c.waits = σ.cache.waits.own s me) :
    Activity.Sound me ⟨c, ⟨id, s, []⟩ :: σ.runs⟩ := by
  have hne : ∀ r ∈ σ.runs, r.serial ≠ s := by
    intro r hr
    refine hσ.serial_ne hr fun e owner marks he => ?_
    simp [hc.before_eq he]
  have hserial : s ∉ σ.runs.map (·.serial) := by
    intro hs
    obtain ⟨r, hr, hrs⟩ := List.mem_map.mp hs
    exact hne r hr hrs
  refine ⟨hc.lone hσ.lone, fun r hr => ?_, fun t e owner marks he hst => ?_, ?_, ?_, ?_⟩
  · rcases List.mem_cons.mp hr with rfl | hr
    · exact ⟨_, hc.entry, rfl, by simp, [], rfl, fun _ => rfl⟩
    · obtain ⟨e, he⟩ := hσ.computes r hr
      exact ⟨e, (hc.others _ (hne r hr)).trans he.entry, he.id, he.listed, he.state⟩
  · by_cases ht : t = s
    · exact ⟨_, List.mem_cons_self, ht.symm⟩
    · obtain ⟨r, hr, hrt⟩ := hσ.ran t e owner marks ((hc.others t ht).symm.trans he) hst
      exact ⟨r, List.mem_cons_of_mem _ hr, hrt⟩
  · exact List.nodup_cons.mpr ⟨hserial, hσ.apart⟩
  · exact List.pairwise_cons.mpr ⟨fun outer _ => List.nil_subset _, hσ.nested⟩
  · rw [hw, hσ.waits]
    exact own_waitsOf me (r := ⟨id, s, []⟩) hserial

theorem Activity.Sound.invalidate (hσ : σ.Sound me) (l : Location) :
    Activity.Sound me ⟨σ.cache.invalidate l, σ.runs.map (·.note [l])⟩ := by
  refine ⟨hσ.lone.invalidate l, fun r hr => ?_, fun s e owner marks he hs => ?_, ?_, ?_, ?_⟩
  · obtain ⟨q, hq, rfl⟩ := List.mem_map.mp hr
    obtain ⟨e, he⟩ := hσ.computes q hq
    exact ⟨_, he.note l⟩
  · obtain ⟨f, hf, rfl⟩ :=
      Option.map_eq_some_iff.mp ((getElem?_invalidate σ.cache l s).symm.trans he)
    obtain ⟨marks', hs'⟩ := inProgress_of_lose hs
    obtain ⟨r, hr, hrs⟩ := hσ.ran s f owner marks' hf hs'
    exact ⟨_, List.mem_map.mpr ⟨r, hr, rfl⟩, hrs⟩
  · simpa [Function.comp_def, Run.note] using hσ.apart
  · refine List.pairwise_map.mpr (hσ.nested.imp fun {r outer} h => ?_)
    exact List.append_subset.mpr ⟨List.subset_append_of_subset_left _ h,
      List.subset_append_right _ _⟩
  · exact hσ.waits.trans (waitsOf_note me σ.runs [l]).symm

/-- When the innermost run ends, its entry is not in progress any more, and the others
are not concerned. -/
theorem Activity.Sound.leave {c : Cache ν} {r : Run} {outer : List Run} {state : EntryState ν}
    (hσ : Activity.Sound me ⟨c, r :: outer⟩)
    (hstate : ∀ owner marks, state ≠ .inProgress owner marks) :
    Activity.Sound me ⟨c.release r.serial state, outer⟩ := by
  obtain ⟨hserial, hapart⟩ := List.nodup_cons.mp hσ.apart
  have hne : ∀ q ∈ outer, r.serial ≠ q.serial :=
    fun q hq h => hserial (List.mem_map.mpr ⟨q, hq, h.symm⟩)
  refine ⟨hσ.lone.setState r.serial state, fun q hq => ?_, fun s e owner marks he hs => ?_, hapart,
    (List.pairwise_cons.mp hσ.nested).2, ?_⟩
  · obtain ⟨e, he⟩ := hσ.computes q (List.mem_cons_of_mem _ hq)
    exact ⟨e, (getElem?_release_ne c state (hne q hq)).trans he.entry, he.id, he.listed, he.state⟩
  · by_cases hrs : r.serial = s
    · subst hrs
      obtain ⟨f, -, rfl⟩ :=
        Option.map_eq_some_iff.mp ((getElem?_setState_eq c _ state).symm.trans he)
      exact absurd hs (hstate owner marks)
    · obtain ⟨q, hq, rfl⟩ :=
        hσ.ran s e owner marks ((getElem?_release_ne c state hrs).symm.trans he) hs
      rcases List.mem_cons.mp hq with rfl | hq
      · exact absurd rfl hrs
      · exact ⟨q, hq, rfl⟩
  · exact (congrArg (·.disown r.serial) hσ.waits).trans (disown_waitsOf me hserial)

theorem Step.sound (hσ : σ.Sound me) (h : Step me σ ls σ') : σ'.Sound me := by
  cases h with
  | stay => exact hσ
  | keep habsent =>
      refine ⟨hσ.lone.concat habsent, fun r hr => ?_, fun s e owner marks he hs => ?_,
        hσ.apart, hσ.nested, hσ.waits⟩
      · obtain ⟨e, he⟩ := hσ.computes r hr
        exact ⟨e, getElem?_concat_of_some he.entry, he.id, he.listed, he.state⟩
      · rcases getElem?_concat_cases he with he | ⟨-, rfl⟩
        · exact hσ.ran s e owner marks he hs
        · cases hs
  | claim hc hw => exact hσ.claim hc hw
  | invalidate => exact hσ.invalidate _
  | leave hstate => exact hσ.leave hstate

theorem Activity.Sound.run {events : List (Event ν)} (hσ : σ.Sound me)
    (h : Activity.run me events σ = some σ') :
    σ'.Sound me := by
  induction events generalizing σ with
  | nil =>
      cases h
      exact hσ
  | cons event events ih =>
      obtain ⟨σ₁, h₁, hrest⟩ := Activity.run_cons.mp h
      exact ih ((Step.of_after hσ h₁).sound hσ) hrest

/-- At every moment of every program the cache agrees with what the thread is doing. -/
theorem Activity.Reached.sound (h : Reached me σ) : σ.Sound me := by
  obtain ⟨events, h⟩ := h
  exact (Activity.Sound.start me).run h

end

end FSharpWorkspace.Cache
