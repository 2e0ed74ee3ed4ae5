import FSharpWorkspace.Proofs.Threads.Crews
/-!
# The files of entries

While nothing is invalidated, a file keeps its entry (`Advances.serial?_eq`), and a value that was
published stays (`Advances.still_done`). A turn claims no entry but the one that the thread wants
(`Advances.still_uncomputed`).
-/

set_option autoImplicit false

namespace FSharpWorkspace

/-! ## The map -/

namespace Cache

variable {ν : Type} {c : Cache ν} {l l' : Location} {s : Serial}

theorem holds_of_serial? (h : c.serial? l = some s) : ∃ e, c.Holds l s e := by
  obtain ⟨hlt, hp, -⟩ := List.findIdx?_eq_some_iff_getElem.mp h
  exact ⟨c.entries[s], List.getElem?_eq_getElem hlt, (holds_iff l _).mp hp⟩

/-- An entry is for one file. -/
theorem serial?_inj (h : c.serial? l = some s) (h' : c.serial? l' = some s) : l = l' := by
  obtain ⟨e, he, -, rfl⟩ := holds_of_serial? h
  obtain ⟨e', he', -, rfl⟩ := holds_of_serial? h'
  rw [Option.some.inj (he.symm.trans he')]

/-- What an entry holds has no part in which file it is for. -/
theorem serial?_setState (c : Cache ν) (r : Serial) (state : EntryState ν) (l : Location) :
    (c.setState r state).serial? l = c.serial? l := by
  have key : ∀ entries : List (Entry ν),
      entries.findIdx? (holds l) = (entries.map (holds l)).findIdx? id := by
    intro entries
    rw [List.findIdx?_map]
    rfl
  have hmap : (c.setState r state).entries.map (holds l) = c.entries.map (holds l) := by
    refine List.ext_getElem? fun i => ?_
    rw [List.getElem?_map, List.getElem?_map]
    by_cases hi : r = i
    · subst hi
      rw [getElem?_setState_eq, Option.map_map]
      rfl
    · rw [getElem?_setState_ne c state hi]
  unfold serial?
  rw [key, key, hmap]

/-- A new entry comes after all others. -/
theorem serial?_getOrCreate (id : Identity) (h : c.serial? l = some s) :
    (c.getOrCreate id).2.serial? l = some s := by
  unfold getOrCreate
  split
  · exact h
  · show (c.entries ++ _).findIdx? (holds l) = some s
    rw [List.findIdx?_append, show c.entries.findIdx? (holds l) = some s from h]
    rfl

theorem serial?_getOrCreate_self (c : Cache ν) (id : Identity) :
    (c.getOrCreate id).2.serial? id.location = some (c.getOrCreate id).1 := by
  unfold getOrCreate
  split
  · assumption
  · rename_i hnone
    show (c.entries ++ _).findIdx? (holds id.location) = some c.entries.length
    rw [List.findIdx?_append, show c.entries.findIdx? (holds id.location) = none from hnone]
    simp [holds]

/-- An entry that was made for a file just now holds nothing. -/
theorem serial?_of_getOrCreate (id : Identity) (h : (c.getOrCreate id).2.serial? l = some s) :
    c.serial? l = some s ∨ c.stateAt s = .uncomputed := by
  cases hs : c.serial? l with
  | some r => exact Or.inl ((serial?_getOrCreate id hs).symm.trans h)
  | none =>
      right
      unfold getOrCreate at h
      split at h
      · cases hs.symm.trans h
      · have hnew : List.findIdx? (holds l) (c.entries ++ [⟨id, true, .uncomputed⟩]) = some s := h
        rw [List.findIdx?_append, show c.entries.findIdx? (holds l) = none from hs] at hnew
        obtain ⟨i, -, rfl⟩ := Option.map_eq_some_iff.mp hnew
        simp [stateAt]

theorem peek_of_stateAt {v : ν} (h : c.serial? l = some s)
    (hv : c.stateAt s = .done v) : c.peek l = some v := by
  obtain ⟨hlt, hp, hfirst⟩ := List.findIdx?_eq_some_iff_getElem.mp h
  have hentry : c.entry? l = some c.entries[s] :=
    List.find?_eq_some_iff_getElem.mpr ⟨hp, s, hlt, rfl, fun j hj => by simpa using hfirst j hj⟩
  have hstate : c.entries[s].state = .done v :=
    (stateAt_eq (List.getElem?_eq_getElem hlt)).symm.trans hv
  simp [peek, hentry, Entry.value?, hstate]

theorem stateAt_of_peek_eq_none (h : c.serial? l = some s) (hidle : c.ownerAt s = none)
    (hp : c.peek l = none) :
    c.stateAt s = .uncomputed := by
  cases hs : c.stateAt s with
  | uncomputed => rfl
  | inProgress owner marks => simp [ownerAt, hs, EntryState.owner?] at hidle
  | done v => cases hp.symm.trans (peek_of_stateAt h hs)

theorem ownerAt_of_done {v : ν} {r : Serial} (h : c.stateAt r = .done v) : c.ownerAt r = none := by
  simp [ownerAt, h, EntryState.owner?]

theorem handedIn_neverStale (v : ν) (state : EntryState ν) :
    handedIn neverStale v state = .done v := by
  unfold handedIn
  split
  · simp [isStale, neverStale]
  · rfl

end Cache

/-! ## Turns -/

namespace Crew

variable {ν : Type} {k k' : Crowd ν} {t : Thread} {gathered : Bool} {task : Task ν}
  {stage stage' : Stage ν}

theorem stateAt_write {s : Serial} {result : Option ν} (hk : k.Sound)
    (h : k.write t s result neverStale = some k') (r : Serial) :
    k'.cache.stateAt r = if r = s then result.elim .uncomputed .done else k.cache.stateAt r := by
  obtain ⟨hleaving, rfl⟩ := Crowd.write_eq_some.mp h
  rw [Cache.stateAt_setState (Cache.lt_of_ownerAt (hk.leaving t s hleaving).1)]
  cases result with
  | none => rfl
  | some v => simp only [Option.elim_some, Cache.handedIn_neverStale]

theorem Advances.serial?_eq (h : Advances k t gathered task stage stage' k') {l : Location}
    {s : Serial} (hs : k.cache.serial? l = some s) : k'.cache.serial? l = some s := by
  cases h with
  | find => exact Cache.serial?_getOrCreate task.id hs
  | asks r id => exact Cache.serial?_getOrCreate id hs
  | look inside r eyes free entry looks =>
      cases looks with
      | claimed => exact (Cache.serial?_setState _ _ _ l).trans hs
      | _ => exact hs
  | rise inside r h =>
      obtain ⟨-, rfl⟩ := Crowd.rise_eq_some.mp h
      exact hs
  | leave r result outer refused h =>
      obtain ⟨-, rfl⟩ := Crowd.leave_eq_some.mp h
      exact hs
  | write r result outer refused h =>
      obtain ⟨-, rfl⟩ := Crowd.write_eq_some.mp h
      exact (Cache.serial?_setState _ _ _ l).trans hs
  | comes | tell => exact hs

theorem Advances.serial?_back (h : Advances k t gathered task stage stage' k') {l : Location}
    {s : Serial} (hs : k'.cache.serial? l = some s) :
    k.cache.serial? l = some s ∨ k'.cache.stateAt s = .uncomputed := by
  have hfind : ∀ id, (k.find id).2.cache.serial? l = some s →
      k.cache.serial? l = some s ∨ (k.find id).2.cache.stateAt s = .uncomputed := fun id hs => by
    rw [show (k.find id).2.cache.stateAt s = k.cache.stateAt s from Cache.stateAt_getOrCreate _ _ _]
    exact Cache.serial?_of_getOrCreate id hs
  cases h with
  | find => exact hfind task.id hs
  | asks r id => exact hfind id hs
  | look inside r eyes free entry looks =>
      cases looks with
      | claimed => exact Or.inl ((Cache.serial?_setState _ _ _ l).symm.trans hs)
      | _ => exact Or.inl hs
  | rise inside r h =>
      obtain ⟨-, rfl⟩ := Crowd.rise_eq_some.mp h
      exact Or.inl hs
  | leave r result outer refused h =>
      obtain ⟨-, rfl⟩ := Crowd.leave_eq_some.mp h
      exact Or.inl hs
  | write r result outer refused h =>
      obtain ⟨-, rfl⟩ := Crowd.write_eq_some.mp h
      exact Or.inl ((Cache.serial?_setState _ _ _ l).symm.trans hs)
  | comes | tell => exact Or.inl hs

/-- What a turn does to what entries hold: the thread claims the entry that it wants, or writes into
the one that it has left. -/
theorem Advances.stateAt_cases (h : Advances k t gathered task stage stage' k') (hk : k.Sound)
    (r : Serial) :
    k'.cache.stateAt r = k.cache.stateAt r ∨
    (stage.seeks = some r ∧ k.cache.stateAt r = .uncomputed ∧
      k'.cache.stateAt r = .inProgress t []) ∨
    (∃ result outer refused, stage = .closing .write r result outer refused ∧
      k.cache.ownerAt r = some t ∧
      k'.cache.stateAt r = result.elim .uncomputed .done) := by
  cases h with
  | find => exact Or.inl (Cache.stateAt_getOrCreate _ _ _)
  | asks s id => exact Or.inl (Cache.stateAt_getOrCreate _ _ _)
  | look inside s eyes free entry looks =>
      cases looks with
      | claimed h =>
          have hstate :
            Cache.stateAt
            { k.cache.setState s (.inProgress t []) with waits := k.cache.waits.own s t } r =
              if r = s then .inProgress t [] else k.cache.stateAt r :=
            Cache.stateAt_setState (List.getElem?_eq_some_iff.mp entry).1 _ r
          rw [hstate]
          by_cases hr : r = s
          · subst hr
            refine Or.inr (Or.inl ⟨?_, (Cache.stateAt_eq entry).trans h, if_pos rfl⟩)
            rcases eyes with rfl | rfl <;> rfl
          · exact Or.inl (if_neg hr)
      | _ => exact Or.inl rfl
  | rise inside s h =>
      obtain ⟨-, rfl⟩ := Crowd.rise_eq_some.mp h
      exact Or.inl rfl
  | leave s result outer refused h =>
      obtain ⟨-, rfl⟩ := Crowd.leave_eq_some.mp h
      exact Or.inl rfl
  | write s result outer refused h =>
      rw [stateAt_write hk h]
      by_cases hr : r = s
      · subst hr
        have howner := (hk.leaving t r (Crowd.write_eq_some.mp h).1).1
        exact Or.inr (Or.inr ⟨result, outer, refused, rfl, howner, if_pos rfl⟩)
      · exact Or.inl (if_neg hr)
  | comes | tell => exact Or.inl rfl

/-- A value that was published stays. -/
theorem Advances.still_done (h : Advances k t gathered task stage stage' k') (hk : k.Sound)
    {r : Serial} {v : ν} (hr : k.cache.stateAt r = .done v) : k'.cache.stateAt r = .done v := by
  rcases h.stateAt_cases hk r with hsame | ⟨-, hun, -⟩ | ⟨-, -, -, -, howner, -⟩
  · exact hsame.trans hr
  · cases hr.symm.trans hun
  · cases (Cache.ownerAt_of_done hr).symm.trans howner

/-- An entry that the thread does not want is not claimed. -/
theorem Advances.still_uncomputed (h : Advances k t gathered task stage stage' k') (hk : k.Sound)
    {r : Serial} (hne : stage.seeks ≠ some r) (hr : k.cache.stateAt r = .uncomputed) :
    k'.cache.stateAt r = .uncomputed := by
  rcases h.stateAt_cases hk r with hsame | ⟨hseeks, -, -⟩ | ⟨-, -, -, -, howner, -⟩
  · exact hsame.trans hr
  · exact absurd hseeks hne
  · simp [Cache.ownerAt, hr, EntryState.owner?] at howner

end Crew

end FSharpWorkspace
