import FSharpWorkspace.Cache.Basic
import Mathlib.Tactic.Common
/-!
# The entries of a cache

The map of a cache is read off its entries: the listed entry for a place, if there is one.
`Lone` says that there is never more than one, and then `serial?`, `entry?` and `peek`
find it (`peek_eq_some`). The rest of the file says what each operation does to the entry
with a given serial.

A single thread never waits: whatever is in progress is in progress further out on the same thread
(`Owned`), so a request is answered, refused, or lets the caller compute (`start_cases`).
-/

set_option autoImplicit false

namespace FSharpWorkspace

/-! ## Tables -/

theorem lookup_filter_ne {α β : Type} [DecidableEq α] {a x : α} (table : List (α × β)) (h : x ≠ a) :
    (table.filter (·.1 ≠ a)).lookup x = table.lookup x := by
  induction table with
  | nil => rfl
  | cons entry rest ih =>
      by_cases he : entry.1 = a
      · have hx : (x == entry.1) = false := by simpa [he] using h
        rw [List.filter_cons_of_neg (by simpa using he), List.lookup_cons, hx]
        exact ih
      · rw [List.filter_cons_of_pos (by simpa using he), List.lookup_cons, List.lookup_cons, ih]

theorem lookup_filter_self {α β : Type} [DecidableEq α] (a : α) (table : List (α × β)) :
    (table.filter (·.1 ≠ a)).lookup a = none := by
  refine List.lookup_eq_none_iff.mpr fun entry h => ?_
  have hne : entry.1 ≠ a := by simpa using (List.mem_filter.mp h).2
  exact bne_iff_ne.mpr hne.symm

namespace Cache

variable {ν : Type}

/-! ## The map -/

/-- The map holds the entry `e`, whose serial is `s`, for the file at `l`. -/
def Holds (c : Cache ν) (l : Location) (s : Serial) (e : Entry ν) : Prop :=
  c.entries[s]? = some e ∧ e.listed = true ∧ e.id.location = l

/-- The map holds at most one entry for each place. -/
def Lone (c : Cache ν) : Prop :=
  ∀ l s e t f, c.Holds l s e → c.Holds l t f → s = t

def Busy (c : Cache ν) (l : Location) : Prop :=
  ∃ s e owner marks, c.Holds l s e ∧ e.state = .inProgress owner marks

/-- Every entry in progress belongs to the thread `me`. -/
def Owned (c : Cache ν) (me : Thread) : Prop :=
  ∀ (s : Serial) e owner marks, c.entries[s]? = some e →
    e.state = .inProgress owner marks → owner = me

theorem holds_iff (l : Location) (e : Entry ν) :
    holds l e = true ↔ e.listed = true ∧ e.id.location = l := by
  simp [holds]

theorem Lone.entry_eq {c : Cache ν} (hc : c.Lone) {l : Location} {s t : Serial} {e f : Entry ν}
    (he : c.Holds l s e) (hf : c.Holds l t f) : e = f := by
  obtain rfl := hc l s e t f he hf
  have h := he.1.symm.trans hf.1
  exact Option.some.inj h

theorem entry?_eq_some {c : Cache ν} (hc : c.Lone) (l : Location) (e : Entry ν) :
    c.entry? l = some e ↔ ∃ s, c.Holds l s e := by
  constructor
  · intro h
    have hmem := List.mem_of_find?_eq_some h
    have hp := List.find?_some h
    obtain ⟨s, hs⟩ := List.getElem?_of_mem hmem
    exact ⟨s, hs, (holds_iff l e).mp hp⟩
  · -- what is found is listed for the file, and there is only one such entry
    rintro ⟨s, he⟩
    cases h : c.entry? l with
    | none =>
        have hne := List.find?_eq_none.mp h e (List.mem_of_getElem? he.1)
        exact absurd ((holds_iff l e).mpr he.2) hne
    | some f =>
        have hp := List.find?_some h
        obtain ⟨t, ht⟩ := List.getElem?_of_mem (List.mem_of_find?_eq_some h)
        have hf : c.Holds l t f := ⟨ht, (holds_iff l f).mp hp⟩
        rw [hc.entry_eq he hf]

theorem serial?_eq_some {c : Cache ν} (hc : c.Lone) (l : Location) (s : Serial) :
    c.serial? l = some s ↔ ∃ e, c.Holds l s e := by
  constructor
  · intro h
    obtain ⟨hlt, hp, -⟩ := List.findIdx?_eq_some_iff_getElem.mp h
    exact ⟨c.entries[s], List.getElem?_eq_getElem hlt, (holds_iff l _).mp hp⟩
  · rintro ⟨e, he⟩
    cases h : c.serial? l with
    | none =>
        have hne := List.findIdx?_eq_none_iff.mp h e (List.mem_of_getElem? he.1)
        rw [(holds_iff l e).mpr he.2] at hne
        cases hne
    | some t =>
        obtain ⟨hlt, hp, -⟩ := List.findIdx?_eq_some_iff_getElem.mp h
        have ht : c.Holds l t c.entries[t] := ⟨List.getElem?_eq_getElem hlt, (holds_iff l _).mp hp⟩
        rw [hc l s e t _ he ht]

theorem serial?_eq_none (c : Cache ν) (l : Location) :
    c.serial? l = none ↔ ∀ s e, ¬ c.Holds l s e := by
  constructor
  · intro h s e he
    have hne := List.findIdx?_eq_none_iff.mp h e (List.mem_of_getElem? he.1)
    rw [(holds_iff l e).mpr he.2] at hne
    cases hne
  · intro h
    refine List.findIdx?_eq_none_iff.mpr fun e hmem => ?_
    obtain ⟨s, hs⟩ := List.getElem?_of_mem hmem
    by_contra hp
    exact h s e ⟨hs, (holds_iff l e).mp (by simpa using hp)⟩

theorem Entry.value?_eq_some (e : Entry ν) (v : ν) : e.value? = some v ↔ e.state = .done v := by
  unfold Entry.value?
  cases e.state <;> simp

/-- The value found for a file is that of the entry which the map holds for it. -/
theorem peek_eq_some {c : Cache ν} (hc : c.Lone) (l : Location) (v : ν) :
    c.peek l = some v ↔ ∃ s e, c.Holds l s e ∧ e.state = .done v := by
  unfold peek
  rw [Option.bind_eq_some_iff]
  constructor
  · rintro ⟨e, he, hv⟩
    obtain ⟨s, hs⟩ := (entry?_eq_some hc l e).mp he
    exact ⟨s, e, hs, (Entry.value?_eq_some e v).mp hv⟩
  · rintro ⟨s, e, hs, hv⟩
    exact ⟨e, (entry?_eq_some hc l e).mpr ⟨s, hs⟩, (Entry.value?_eq_some e v).mpr hv⟩

/-- A file in progress has no value. -/
theorem Busy.peek_eq_none {c : Cache ν} (hc : c.Lone) {l : Location} (hb : c.Busy l) :
    c.peek l = none := by
  obtain ⟨s, e, owner, marks, he, hst⟩ := hb
  cases h : c.peek l with
  | none => rfl
  | some v =>
      obtain ⟨t, f, hf, hv⟩ := (peek_eq_some hc l v).mp h
      rw [hc.entry_eq he hf, hv] at hst
      cases hst

theorem mem_computed {c : Cache ν} (id : Identity) (v : ν) :
    (id, v) ∈ c.computed ↔ ∃ s e, c.Holds id.location s e ∧ e.id = id ∧ e.state = .done v := by
  unfold computed listed
  simp only [List.mem_filterMap, List.mem_filter, Option.map_eq_some_iff, Prod.mk.injEq]
  constructor
  · rintro ⟨e, ⟨hmem, hl⟩, w, hw, hid, rfl⟩
    obtain ⟨s, hs⟩ := List.getElem?_of_mem hmem
    subst hid
    exact ⟨s, e, ⟨hs, hl, rfl⟩, rfl, (Entry.value?_eq_some e w).mp hw⟩
  · rintro ⟨s, e, ⟨hs, hl, -⟩, hid, hv⟩
    exact ⟨e, ⟨List.mem_of_getElem? hs, hl⟩, v, (Entry.value?_eq_some e v).mpr hv, hid, rfl⟩

/-- No two listed entries are for one place. -/
theorem Lone.of_pairwise {c : Cache ν}
    (h : c.entries.Pairwise fun e f => e.listed = true → f.listed = true →
      e.id.location ≠ f.id.location) : c.Lone := by
  have key : ∀ l s e t f, c.Holds l s e → c.Holds l t f → ¬ s < t := by
    rintro l s e t f ⟨he, hle, rfl⟩ ⟨hf, hlf, hid⟩ hlt
    obtain ⟨hs, rfl⟩ := List.getElem?_eq_some_iff.mp he
    obtain ⟨ht, rfl⟩ := List.getElem?_eq_some_iff.mp hf
    exact List.pairwise_iff_getElem.mp h s t hs ht hlt hle hlf hid.symm
  intro l s e t f he hf
  exact Nat.le_antisymm (Nat.not_lt.mp (key l t f s e hf he)) (Nat.not_lt.mp (key l s e t f he hf))

/-! ## States of entries -/

theorem getElem?_setState_eq (c : Cache ν) (s : Serial) (state : EntryState ν) :
    (c.setState s state).entries[s]? = (c.entries[s]?).map ({ · with state }) := by
  simp [setState]

theorem getElem?_setState_ne (c : Cache ν) {s t : Serial} (state : EntryState ν) (h : s ≠ t) :
    (c.setState s state).entries[t]? = c.entries[t]? := by
  simp [setState, h]

/-- An entry after another state was put into one is an entry as it was, with its
state or the new one. -/
theorem getElem?_setState_cases {c : Cache ν} {s t : Serial} {state : EntryState ν} {e : Entry ν}
    (h : (c.setState s state).entries[t]? = some e) :
    ∃ f, c.entries[t]? = some f ∧ f.id = e.id ∧
      (e.state = f.state ∨ (t = s ∧ e.state = state)) := by
  by_cases hs : s = t
  · subst hs
    rw [getElem?_setState_eq, Option.map_eq_some_iff] at h
    obtain ⟨f, hf, rfl⟩ := h
    exact ⟨f, hf, rfl, Or.inr ⟨rfl, rfl⟩⟩
  · rw [getElem?_setState_ne c state hs] at h
    exact ⟨e, h, rfl, Or.inl rfl⟩

/-- What an entry holds has no part in which entries the map holds. -/
theorem Lone.setState {c : Cache ν} (hc : c.Lone) (s : Serial) (state : EntryState ν) :
    (c.setState s state).Lone := by
  have old : ∀ l t f, (c.setState s state).Holds l t f → ∃ f', c.Holds l t f' := by
    rintro l t f ⟨hf, hl, hid⟩
    by_cases hs : s = t
    · subst hs
      obtain ⟨e, he, rfl⟩ :=
        Option.map_eq_some_iff.mp ((getElem?_setState_eq c s state).symm.trans hf)
      exact ⟨e, he, hl, hid⟩
    · exact ⟨f, (getElem?_setState_ne c state hs).symm.trans hf, hl, hid⟩
  intro l t f u g hf hg
  obtain ⟨f', hf'⟩ := old l t f hf
  obtain ⟨g', hg'⟩ := old l u g hg
  exact hc l t f' u g' hf' hg'

theorem stateAt_eq {c : Cache ν} {s : Serial} {e : Entry ν} (h : c.entries[s]? = some e) :
    c.stateAt s = e.state := by
  simp [stateAt, h]

/-! ## Requests of a single thread -/

/-- Asking turned the cache `c` into `c'`, in which the entry with serial `s`, under the identity
`id`, is in progress on `me`. The entry was uncomputed before, or is new. -/
structure Claims (c : Cache ν) (me : Thread) (l : Location) (s : Serial) (id : Identity)
    (c' : Cache ν) : Prop where
  place : id.location = l
  entry : c'.entries[s]? = some ⟨id, true, .inProgress me []⟩
  others : ∀ t, t ≠ s → c'.entries[t]? = c.entries[t]?
  before : c.entries[s]? = some ⟨id, true, .uncomputed⟩ ∨
    (c.entries[s]? = none ∧ ∀ t e, ¬ c.Holds l t e)

theorem leadsBack_self (w : WaitGraph) (me : Thread) : w.leadsBack me me = true := by
  simp [WaitGraph.leadsBack, WaitGraph.meets]

theorem request_ready {c : Cache ν} {s : Serial} {v : ν} (me : Thread) (id : Identity)
    (h : c.stateAt s = .done v) : c.request me s id = (.ready v, c) := by
  simp [request, h]

theorem request_refused {c : Cache ν} {s : Serial} {me : Thread} {marks : List Location}
    (id : Identity) (h : c.stateAt s = .inProgress me marks) :
    c.request me s id = (.refused id, c) := by
  simp [request, h, leadsBack_self]

theorem request_claimed {c : Cache ν} {s : Serial} (me : Thread) (id : Identity)
    (h : c.stateAt s = .uncomputed) :
    c.request me s id =
      (.claimed s id, { c.setState s (.inProgress me []) with waits := c.waits.own s me }) := by
  simp [request, h]

/-- A request for a file that the map holds is a request for that entry. -/
theorem start_of_holds {c : Cache ν} (hc : c.Lone) (me : Thread) {id : Identity} {s : Serial}
    {e : Entry ν} (h : c.Holds id.location s e) : c.start me id = c.request me s e.id := by
  have hs : c.serial? id.location = some s := (serial?_eq_some hc _ s).mpr ⟨e, h⟩
  simp [start, getOrCreate, hs, h.1]

/-- A request for a file that the map does not hold makes an entry for it. -/
theorem start_of_absent {c : Cache ν} (me : Thread) {id : Identity}
    (h : ∀ s e, ¬ c.Holds id.location s e) :
    c.start me id = Cache.request { c with entries := c.entries ++ [⟨id, true, .uncomputed⟩] } me
      c.entries.length id := by
  have hs : c.serial? id.location = none := (serial?_eq_none c _).mpr h
  simp [start, getOrCreate, hs]

theorem Claims.of_holds {c : Cache ν} {me : Thread} {l : Location} {s : Serial} {e : Entry ν}
    (h : c.Holds l s e) (hfree : e.state = .uncomputed) :
    c.Claims me l s e.id { c.setState s (.inProgress me []) with waits := c.waits.own s me } := by
  have hent : c.entries[s]? = some ⟨e.id, true, .uncomputed⟩ := by
    rw [h.1, ← h.2.1, ← hfree]
  refine ⟨h.2.2, ?_, fun t ht => getElem?_setState_ne c _ (Ne.symm ht), Or.inl hent⟩
  show (c.setState s (.inProgress me [])).entries[s]? = _
  rw [getElem?_setState_eq, hent]
  rfl

/-- A new entry comes after all others, so these keep their serials. -/
theorem Claims.of_absent {c : Cache ν} (me : Thread) {id : Identity}
    (h : ∀ s e, ¬ c.Holds id.location s e) :
    c.Claims me id.location c.entries.length id
      { Cache.setState { c with entries := c.entries ++ [⟨id, true, .uncomputed⟩] } c.entries.length
          (.inProgress me []) with waits := c.waits.own c.entries.length me } := by
  refine ⟨rfl, ?_, ?_, Or.inr ⟨by simp, h⟩⟩
  · show (Cache.setState _ _ (.inProgress me [])).entries[c.entries.length]? = _
    rw [getElem?_setState_eq, List.getElem?_concat_length]
    rfl
  · intro t ht
    show (Cache.setState _ _ (.inProgress me [])).entries[t]? = _
    rw [getElem?_setState_ne _ _ (Ne.symm ht)]
    rcases Nat.lt_or_ge t c.entries.length with hlt | hge
    · exact List.getElem?_append_left hlt
    · have hgt : c.entries.length < t := Nat.lt_of_le_of_ne hge (Ne.symm ht)
      have hold : c.entries[t]? = none := List.getElem?_eq_none_iff.mpr hge
      rw [hold, List.getElem?_eq_none_iff]
      show (c.entries ++ [_]).length ≤ t
      rw [List.length_append, List.length_singleton]
      exact hgt

/-- What a single thread learns when it asks for a file. -/
theorem start_cases {c : Cache ν} (hc : c.Lone) {me : Thread} (ho : c.Owned me) (id : Identity) :
    (∃ v, c.start me id = (.ready v, c) ∧ c.peek id.location = some v) ∨
    (∃ s e, c.start me id = (.refused e.id, c) ∧ c.Holds id.location s e ∧ c.Busy id.location) ∨
    (∃ s id' c', c.start me id = (.claimed s id', c') ∧ c.Claims me id.location s id' c' ∧
      (id' = id ∨ c.entries[s]? = some ⟨id', true, .uncomputed⟩)) := by
  by_cases hx : ∃ s e, c.Holds id.location s e
  · obtain ⟨s, e, he⟩ := hx
    rw [start_of_holds hc me he]
    have hst : c.stateAt s = e.state := stateAt_eq he.1
    cases h : e.state with
    | done v =>
        rw [h] at hst
        exact Or.inl ⟨v, request_ready me e.id hst, (peek_eq_some hc _ v).mpr ⟨s, e, he, h⟩⟩
    | inProgress owner marks =>
        rw [h] at hst
        -- the entry belongs to the very thread that asks, so waiting for it would never end
        obtain rfl := ho s e owner marks he.1 h
        exact Or.inr (Or.inl ⟨s, e, request_refused e.id hst, he, s, e, owner, marks, he, h⟩)
    | uncomputed =>
        rw [h] at hst
        exact Or.inr (Or.inr ⟨s, e.id, _, request_claimed me e.id hst, .of_holds he h,
          Or.inr (by rw [he.1, ← he.2.1, ← h])⟩)
  · have habsent : ∀ s e, ¬ c.Holds id.location s e := fun s e h => hx ⟨s, e, h⟩
    rw [start_of_absent me habsent]
    have hst : Cache.stateAt
      { c with entries := c.entries ++ [⟨id, true, .uncomputed⟩] } c.entries.length
        = .uncomputed := by rw [stateAt_eq List.getElem?_concat_length]
    exact Or.inr (Or.inr ⟨_, id, _, request_claimed me id hst, .of_absent me habsent, Or.inl rfl⟩)

end Cache

end FSharpWorkspace
