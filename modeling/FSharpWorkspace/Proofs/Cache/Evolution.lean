import FSharpWorkspace.Proofs.Cache.Entries
/-!
# How a cache evolves

Between two moments a single thread claims entries and finishes them, at any depth, and files are
invalidated. `Evolves fresh lost c c'` says what is left of `c` in `c'`: `lost` lists the
invalidated files in their order, and the values made meanwhile are `fresh`. An entry leaves the map
when its file is lost, a value once computed stays in its entry, and an entry in progress that stays
in the map is marked with everything that was lost.

A computation from its claim to the arrival of its value is again such a relation
(`Claims.evolves_finish`). What the map then says of its file is in `Claims.peek_finish_self`.
-/

set_option autoImplicit false

namespace FSharpWorkspace.Cache

variable {ν : Type}

/-! ## The relation -/

/-- What is left of `c` in `c'`, after the files `lost` were invalidated and
some values were made. -/
structure Evolves (fresh : ν → Prop) (lost : List Location) (c c' : Cache ν) : Prop where
  entry : ∀ (s : Serial) e, c.entries[s]? = some e → ∃ e', c'.entries[s]? = some e' ∧ e'.id = e.id ∧
    (e'.listed = true ↔ e.listed = true ∧ e.id.location ∉ lost)
  done : ∀ (s : Serial) e e' v, c.entries[s]? = some e →
    c'.entries[s]? = some e' → e.state = .done v →
    e'.state = .done v
  marks : ∀ (s : Serial) e e' owner ms, c.entries[s]? = some e → c'.entries[s]? = some e' →
    e.state = .inProgress owner ms → e'.listed = true → e'.state = .inProgress owner (ms ++ lost)
  made : ∀ (s : Serial) e' v, c'.entries[s]? = some e' → e'.state = .done v →
    (∃ e, c.entries[s]? = some e ∧ e.state = .done v) ∨ fresh v
  busy : ∀ (s : Serial) e' owner ms, c'.entries[s]? = some e' → e'.state = .inProgress owner ms →
    ∃ e ms', c.entries[s]? = some e ∧ e.state = .inProgress owner ms'

theorem Evolves.refl (fresh : ν → Prop) (c : Cache ν) : c.Evolves fresh [] c where
  entry s e h := ⟨e, h, rfl, by simp⟩
  done s e e' v h h' hv := by
    obtain rfl := Option.some.inj (h.symm.trans h')
    exact hv
  marks s e e' owner ms h h' hs _ := by
    obtain rfl := Option.some.inj (h.symm.trans h')
    rw [List.append_nil]
    exact hs
  made s e v h hv := Or.inl ⟨e, h, hv⟩
  busy s e owner ms h hs := ⟨e, ms, h, hs⟩

theorem Evolves.trans {fresh : ν → Prop} {lost lost' : List Location} {c c' c'' : Cache ν}
    (h : c.Evolves fresh lost c') (h' : c'.Evolves fresh lost' c'') :
    c.Evolves fresh (lost ++ lost') c'' where
  entry s e he := by
    obtain ⟨e', he', hid, hl⟩ := h.entry s e he
    obtain ⟨e'', he'', hid', hl'⟩ := h'.entry s e' he'
    refine ⟨e'', he'', hid'.trans hid, ?_⟩
    rw [hl', hl, hid, List.mem_append, not_or, and_assoc]
  done s e e'' v he he'' hv := by
    obtain ⟨e', he', -⟩ := h.entry s e he
    exact h'.done s e' e'' v he' he'' (h.done s e e' v he he' hv)
  marks s e e'' owner ms he he'' hs hl := by
    obtain ⟨e', he', -⟩ := h.entry s e he
    obtain ⟨f, hf, -, hfl⟩ := h'.entry s e' he'
    obtain rfl := Option.some.inj (hf.symm.trans he'')
    rw [← List.append_assoc]
    exact h'.marks s e' f owner _ he' he'' (h.marks s e e' owner ms he he' hs (hfl.mp hl).1) hl
  made s e'' v he hv := by
    rcases h'.made s e'' v he hv with ⟨e', he', hv'⟩ | hf
    · exact h.made s e' v he' hv'
    · exact Or.inr hf
  busy s e'' owner ms he hs := by
    obtain ⟨e', ms', he', hs'⟩ := h'.busy s e'' owner ms he hs
    exact h.busy s e' owner ms' he' hs'

theorem Evolves.mono {fresh fresh' : ν → Prop} {lost : List Location} {c c' : Cache ν}
    (hf : ∀ v, fresh v → fresh' v) (h : c.Evolves fresh lost c') : c.Evolves fresh' lost c' :=
  { h with made := fun s e v he hv => (h.made s e v he hv).imp_right (hf v) }

/-! ## What stays in the map -/

theorem Evolves.holds {fresh : ν → Prop} {lost : List Location} {c c' : Cache ν}
    (h : c.Evolves fresh lost c') {l : Location} {s : Serial} {e : Entry ν} (he : c.Holds l s e)
    (hl : l ∉ lost) :
    ∃ e', c'.Holds l s e' := by
  obtain ⟨e', he', hid, hlist⟩ := h.entry s e he.1
  refine ⟨e', he', hlist.mpr ⟨he.2.1, ?_⟩, ?_⟩
  · rw [he.2.2]; exact hl
  · rw [hid]; exact he.2.2

/-- A value stays where it is until its file is lost. -/
theorem Evolves.peek {fresh : ν → Prop} {lost : List Location} {c c' : Cache ν}
    (h : c.Evolves fresh lost c') (hc : c.Lone) (hc' : c'.Lone) {l : Location} {v : ν}
    (hp : c.peek l = some v) (hl : l ∉ lost) :
    c'.peek l = some v := by
  obtain ⟨s, e, he, hv⟩ := (peek_eq_some hc l v).mp hp
  obtain ⟨e', he'⟩ := h.holds he hl
  exact (peek_eq_some hc' l v).mpr ⟨s, e', he', h.done s e e' v he.1 he'.1 hv⟩

/-- A value is found because it was there and its file is not lost, or because it
was made meanwhile. -/
theorem Evolves.peek_inv {fresh : ν → Prop} {lost : List Location} {c c' : Cache ν}
    (h : c.Evolves fresh lost c') (hc : c.Lone) (hc' : c'.Lone) {l : Location} {v : ν}
    (hp : c'.peek l = some v) :
    (c.peek l = some v ∧ l ∉ lost) ∨ fresh v := by
  obtain ⟨s, e', he', hv⟩ := (peek_eq_some hc' l v).mp hp
  rcases h.made s e' v he'.1 hv with ⟨e, he, hv'⟩ | hf
  · obtain ⟨f, hf, hid, hl⟩ := h.entry s e he
    obtain rfl := Option.some.inj (hf.symm.trans he'.1)
    have hlost := hl.mp he'.2.1
    rw [← hid, he'.2.2] at hlost
    refine Or.inl ⟨(peek_eq_some hc l v).mpr ⟨s, e, ⟨he, hlost.1, ?_⟩, hv'⟩, hlost.2⟩
    rw [← hid]; exact he'.2.2
  · exact Or.inr hf

theorem Evolves.stays_busy {fresh : ν → Prop} {lost : List Location} {c c' : Cache ν}
    (h : c.Evolves fresh lost c') {l : Location} (hb : c.Busy l) (hl : l ∉ lost) : c'.Busy l := by
  obtain ⟨s, e, owner, ms, he, hs⟩ := hb
  obtain ⟨e', he'⟩ := h.holds he hl
  exact ⟨s, e', owner, _, he', h.marks s e e' owner ms he.1 he'.1 hs he'.2.1⟩

theorem Evolves.was_busy {fresh : ν → Prop} {lost : List Location} {c c' : Cache ν}
    (h : c.Evolves fresh lost c') {l : Location} (hb : c'.Busy l) : c.Busy l ∧ l ∉ lost := by
  obtain ⟨s, e', owner, ms, he', hs⟩ := hb
  obtain ⟨e, ms', he, hs'⟩ := h.busy s e' owner ms he'.1 hs
  obtain ⟨f, hf, hid, hl⟩ := h.entry s e he
  obtain rfl := Option.some.inj (hf.symm.trans he'.1)
  have hlost := hl.mp he'.2.1
  rw [← hid, he'.2.2] at hlost
  refine ⟨⟨s, e, owner, ms', ⟨he, hlost.1, ?_⟩, hs'⟩, hlost.2⟩
  rw [← hid]; exact he'.2.2

theorem Owned.evolves {fresh : ν → Prop} {lost : List Location} {c c' : Cache ν} {me : Thread}
    (ho : c.Owned me) (h : c.Evolves fresh lost c') : c'.Owned me := by
  intro s e' owner ms he' hs
  obtain ⟨e, ms', he, hs'⟩ := h.busy s e' owner ms he' hs
  exact ho s e owner ms' he hs'

/-! ## Claiming and finishing -/

theorem finish_entries (c : Cache ν) (s : Serial) (v : ν) (stale : ν → Location → Bool) :
    (c.finish s v stale).entries = (c.setState s (handedIn stale v (c.stateAt s))).entries := rfl

theorem handedIn_cases (stale : ν → Location → Bool) (v : ν) (state : EntryState ν) :
    handedIn stale v state = .done v ∨ handedIn stale v state = .uncomputed := by
  unfold handedIn
  split
  · split <;> simp
  · exact Or.inl rfl

theorem handedIn_ne_inProgress (stale : ν → Location → Bool) (v : ν) (state : EntryState ν)
    (owner : Thread) (marks : List Location) :
    handedIn stale v state ≠ .inProgress owner marks := by
  rcases handedIn_cases stale v state with h | h
  · simp [h]
  · simp [h]

theorem getElem?_finish_ne (c : Cache ν) {s t : Serial} (v : ν) (stale : ν → Location → Bool)
    (h : t ≠ s) :
    (c.finish s v stale).entries[t]? = c.entries[t]? :=
  getElem?_setState_ne c _ (Ne.symm h)

theorem getElem?_finish (c : Cache ν) (s : Serial) (v : ν) (stale : ν → Location → Bool) :
    (c.finish s v stale).entries[s]? =
      (c.entries[s]?).map fun e => { e with state := handedIn stale v e.state } := by
  rw [finish_entries, getElem?_setState_eq]
  cases h : c.entries[s]? with
  | none => rfl
  | some e => rw [Option.map_some, Option.map_some, stateAt_eq h]

theorem getElem?_finish_eq {c : Cache ν} {s : Serial} {e : Entry ν} (v : ν)
    (stale : ν → Location → Bool) (h : c.entries[s]? = some e) :
    (c.finish s v stale).entries[s]? = some { e with state := handedIn stale v e.state } := by
  rw [getElem?_finish, h, Option.map_some]

theorem Claims.lone {c c₁ : Cache ν} {me : Thread} {l : Location} {s : Serial} {id : Identity}
    (hc : c.Lone) (h : c.Claims me l s id c₁) : c₁.Lone := by
  -- an entry of the map is an entry of the old map, or the one just made
  have old : ∀ l' t e, c₁.Holds l' t e → (∃ f, c.Holds l' t f) ∨
      (t = s ∧ l' = l ∧ ∀ u f, ¬ c.Holds l u f) := by
    intro l' t e he
    by_cases ht : t = s
    · subst ht
      obtain rfl := Option.some.inj (h.entry.symm.trans he.1)
      rcases h.before with hb | ⟨-, hn⟩
      · exact Or.inl ⟨_, hb, rfl, he.2.2⟩
      · exact Or.inr ⟨rfl, he.2.2.symm.trans h.place, hn⟩
    · exact Or.inl ⟨e, (h.others t ht).symm.trans he.1, he.2⟩
  intro l' t e u f he hf
  rcases old l' t e he with ⟨e', he'⟩ | ⟨rfl, rfl, hn⟩
  · rcases old l' u f hf with ⟨f', hf'⟩ | ⟨-, rfl, hn⟩
    · exact hc l' t e' u f' he' hf'
    · exact absurd he' (hn t e')
  · rcases old _ u f hf with ⟨f', hf'⟩ | ⟨rfl, -, -⟩
    · exact absurd hf' (hn u f')
    · rfl

theorem Lone.finish {c : Cache ν} (hc : c.Lone) (s : Serial) (v : ν) (stale : ν → Location → Bool) :
    (c.finish s v stale).Lone :=
  hc.setState s _

/-- A value that arrives while its entry is in the map is kept if it is not stale for
anything that was marked. -/
theorem Holds.peek_finish {c : Cache ν} {l : Location} {s : Serial} {e : Entry ν} {owner : Thread}
    {marks : List Location} (h : c.Holds l s e) (hc : c.Lone)
    (hs : e.state = .inProgress owner marks) (v : ν) (stale : ν → Location → Bool) :
    (c.finish s v stale).peek l = if isStale stale v marks then none else some v := by
  have hself := getElem?_finish_eq v stale h.1
  rw [hs] at hself
  have hholds :
      (c.finish s v stale).Holds l s
      { e with state := handedIn stale v (.inProgress owner marks) } :=
    ⟨hself, h.2⟩
  unfold Cache.peek
  rw [(entry?_eq_some (hc.finish s v stale) l _).mpr ⟨s, hholds⟩]
  by_cases hst : isStale stale v marks = true
  · simp [handedIn, Entry.value?, hst]
  · simp [handedIn, Entry.value?, hst]

/-! ### What a claim changes -/

section Claims

variable {c c₁ : Cache ν} {me : Thread} {l : Location} {s : Serial} {id : Identity}

theorem Claims.holds (h : c.Claims me l s id c₁) : c₁.Holds l s ⟨id, true, .inProgress me []⟩ :=
  ⟨h.entry, rfl, h.place⟩

theorem Claims.busy (h : c.Claims me l s id c₁) : c₁.Busy l := ⟨s, _, me, [], h.holds, rfl⟩

theorem Claims.before_eq (h : c.Claims me l s id c₁) {e : Entry ν} (he : c.entries[s]? = some e) :
    e = ⟨id, true, .uncomputed⟩ := by
  rcases h.before with hb | ⟨hb, -⟩
  · exact Option.some.inj (he.symm.trans hb)
  · cases hb.symm.trans he

/-- A file that is claimed is not in progress, and it has no value. -/
theorem Claims.before_uncomputed (hc : c.Lone) (h : c.Claims me l s id c₁) {t : Serial}
    {e : Entry ν} (he : c.Holds l t e) : e.state = .uncomputed := by
  rcases h.before with hb | ⟨-, hn⟩
  · have hs : c.Holds l s ⟨id, true, .uncomputed⟩ := ⟨hb, rfl, h.place⟩
    rw [hc.entry_eq he hs]
  · exact absurd he (hn t e)

theorem Claims.not_busy (hc : c.Lone) (h : c.Claims me l s id c₁) : ¬ c.Busy l := by
  rintro ⟨t, e, owner, marks, he, hs⟩
  rw [h.before_uncomputed hc he] at hs
  cases hs

theorem Claims.peek_eq_none (hc : c.Lone) (h : c.Claims me l s id c₁) : c.peek l = none := by
  cases hp : c.peek l with
  | none => rfl
  | some v =>
      obtain ⟨t, e, he, hv⟩ := (peek_eq_some hc l v).mp hp
      cases (h.before_uncomputed hc he).symm.trans hv

theorem Claims.busy_iff (h : c.Claims me l s id c₁) (l' : Location) :
    c₁.Busy l' ↔ c.Busy l' ∨ l' = l := by
  constructor
  · rintro ⟨t, e, owner, marks, he, hs⟩
    by_cases ht : t = s
    · subst ht
      obtain rfl := Option.some.inj (h.entry.symm.trans he.1)
      exact Or.inr (he.2.2.symm.trans h.place)
    · exact Or.inl ⟨t, e, owner, marks, ⟨(h.others t ht).symm.trans he.1, he.2⟩, hs⟩
  · rintro (⟨t, e, owner, marks, he, hs⟩ | rfl)
    · have ht : t ≠ s := by
        rintro rfl
        obtain rfl := h.before_eq he.1
        cases hs
      exact ⟨t, e, owner, marks, ⟨(h.others t ht).trans he.1, he.2⟩, hs⟩
    · exact h.busy

theorem Claims.owned (ho : c.Owned me) (h : c.Claims me l s id c₁) : c₁.Owned me := by
  intro t e owner marks he hs
  by_cases ht : t = s
  · subst ht
    obtain rfl := Option.some.inj (h.entry.symm.trans he)
    cases hs
    rfl
  · exact ho t e owner marks ((h.others t ht).symm.trans he) hs

theorem Claims.peek (hc : c.Lone) (h : c.Claims me l s id c₁) (l' : Location) :
    c₁.peek l' = c.peek l' := by
  refine Option.ext fun v => ?_
  rw [peek_eq_some (h.lone hc), peek_eq_some hc]
  constructor
  · rintro ⟨t, e, he, hv⟩
    have ht : t ≠ s := by
      rintro rfl
      obtain rfl := Option.some.inj (h.entry.symm.trans he.1)
      cases hv
    exact ⟨t, e, ⟨(h.others t ht).symm.trans he.1, he.2⟩, hv⟩
  · rintro ⟨t, e, he, hv⟩
    have ht : t ≠ s := by
      rintro rfl
      obtain rfl := h.before_eq he.1
      cases hv
    exact ⟨t, e, ⟨(h.others t ht).trans he.1, he.2⟩, hv⟩

/-! ### From a claim to its end -/

variable {fresh : ν → Prop} {lost : List Location} {c₂ : Cache ν} {v : ν}
  {stale : ν → Location → Bool}

/-- The claimed entry just before its value arrives: it left the map if its file was lost, else it
is marked with what was lost. -/
theorem Claims.in_flight (h : c.Claims me l s id c₁) (he : c₁.Evolves fresh lost c₂) :
    ∃ e, c₂.entries[s]? = some e ∧ e.id = id ∧ (e.listed = true ↔ l ∉ lost) ∧
      (l ∉ lost → e.state = .inProgress me lost) := by
  obtain ⟨e, hes, hid, hlist⟩ := he.entry s _ h.entry
  have hl : e.listed = true ↔ l ∉ lost := by
    rw [hlist, ← h.place]
    simp
  exact ⟨e, hes, hid, hl, fun hn => he.marks s _ e me [] h.entry hes rfl (hl.mpr hn)⟩

/-- A flight as a whole: the file was claimed, things happened, the value arrived. -/
theorem Claims.evolves_finish (h : c.Claims me l s id c₁) (he : c₁.Evolves fresh lost c₂)
    (hv : fresh v) :
    c.Evolves fresh lost (c₂.finish s v stale) := by
  obtain ⟨e₂, he₂, hid₂, hlist₂, -⟩ := h.in_flight he
  have hself := getElem?_finish_eq v stale he₂
  refine ⟨?_, ?_, ?_, ?_, ?_⟩
  · -- entries stay, and leave the map when their file is lost
    intro t f hf
    by_cases ht : t = s
    · subst ht
      obtain rfl := h.before_eq hf
      refine ⟨_, hself, hid₂, ?_⟩
      show e₂.listed = true ↔ _
      rw [hlist₂, ← h.place]
      simp
    · obtain ⟨f', hf', hrest⟩ := he.entry t f ((h.others t ht).trans hf)
      exact ⟨f', (getElem?_finish_ne c₂ v stale ht).trans hf', hrest⟩
  · -- a value that was there before is not in the claimed entry, and in no other one it changes
    intro t f f' u hf hf' hu
    have ht : t ≠ s := by
      rintro rfl
      obtain rfl := h.before_eq hf
      cases hu
    rw [getElem?_finish_ne c₂ v stale ht] at hf'
    exact he.done t f f' u ((h.others t ht).trans hf) hf' hu
  · -- the same with what was in progress before
    intro t f f' owner ms hf hf' hs hl
    have ht : t ≠ s := by
      rintro rfl
      obtain rfl := h.before_eq hf
      cases hs
    rw [getElem?_finish_ne c₂ v stale ht] at hf'
    exact he.marks t f f' owner ms ((h.others t ht).trans hf) hf' hs hl
  · -- the only value that is new is the one that arrived
    intro t f' u hf' hu
    by_cases ht : t = s
    · subst ht
      obtain rfl := Option.some.inj (hself.symm.trans hf')
      right
      rcases handedIn_cases stale v e₂.state with hd | hd
      · have : v = u := by simpa using hd.symm.trans hu
        exact this ▸ hv
      · cases hd.symm.trans hu
    · rw [getElem?_finish_ne c₂ v stale ht] at hf'
      rcases he.made t f' u hf' hu with ⟨f, hf, hfu⟩ | hfr
      · exact Or.inl ⟨f, (h.others t ht).symm.trans hf, hfu⟩
      · exact Or.inr hfr
  · -- the claimed entry is not in progress any more
    intro t f' owner ms hf' hs
    have ht : t ≠ s := by
      rintro rfl
      obtain rfl := Option.some.inj (hself.symm.trans hf')
      rcases handedIn_cases stale v e₂.state with hd | hd
      · cases hd.symm.trans hs
      · cases hd.symm.trans hs
    rw [getElem?_finish_ne c₂ v stale ht] at hf'
    obtain ⟨f, ms', hf, hfs⟩ := he.busy t f' owner ms hf' hs
    exact ⟨f, ms', (h.others t ht).symm.trans hf, hfs⟩

/-- A value that arrives while its entry is in the map is kept if it is not stale for
anything that was lost. -/
theorem Claims.peek_finish_self (h : c.Claims me l s id c₁) (he : c₁.Evolves fresh lost c₂)
    (hc : c₂.Lone) (hl : l ∉ lost) :
    (c₂.finish s v stale).peek l = if isStale stale v lost then none else some v := by
  obtain ⟨e₂, he₂, hid₂, hlist₂, hstate⟩ := h.in_flight he
  have hholds : c₂.Holds l s e₂ := ⟨he₂, hlist₂.mpr hl, hid₂ ▸ h.place⟩
  exact hholds.peek_finish hc (hstate hl) v stale

/-- A value that arrives changes nothing for other files, and nothing at all when its
entry left the map. -/
theorem Claims.peek_finish_of_ne (h : c.Claims me l s id c₁) (he : c₁.Evolves fresh lost c₂)
    (hc : c₂.Lone) {l' : Location} (hl : l' ≠ l ∨ l ∈ lost) :
    (c₂.finish s v stale).peek l' = c₂.peek l' := by
  obtain ⟨e₂, he₂, hid₂, hlist₂, -⟩ := h.in_flight he
  have hself := getElem?_finish_eq v stale he₂
  have hlone := hc.finish s v stale
  -- the entry that the value goes to is not the one that the map holds for the other file
  have hne : ∀ e, ¬ c₂.Holds l' s e := by
    intro e hes
    obtain rfl := Option.some.inj (he₂.symm.trans hes.1)
    rcases hl with hl | hl
    · exact hl (hes.2.2.symm.trans (hid₂ ▸ h.place))
    · exact hlist₂.mp hes.2.1 hl
  refine Option.ext fun u => ?_
  rw [peek_eq_some hlone, peek_eq_some hc]
  constructor
  · rintro ⟨t, f, hf, hu⟩
    have ht : t ≠ s := by
      rintro rfl
      obtain rfl := Option.some.inj (hself.symm.trans hf.1)
      exact hne e₂ ⟨he₂, hf.2⟩
    exact ⟨t, f, ⟨(getElem?_finish_ne c₂ v stale ht).symm.trans hf.1, hf.2⟩, hu⟩
  · rintro ⟨t, f, hf, hu⟩
    have ht : t ≠ s := by
      rintro rfl
      exact hne f hf
    exact ⟨t, f, ⟨(getElem?_finish_ne c₂ v stale ht).trans hf.1, hf.2⟩, hu⟩

end Claims

end FSharpWorkspace.Cache
