import FSharpWorkspace.Proofs.Cache.Evolution
import Mathlib.Data.List.TakeWhile
/-!
# The cascade

The cascade is a list of invalidations, one after the other, of the files that the change reaches
and of no others (`cascade_eq_foldl`). So it is closed: no value that is left depends on a file
that was invalidated (`Reaches.not_depends`). The rounds suffice because each of them takes a
value out of the map.
-/

set_option autoImplicit false

namespace FSharpWorkspace

variable {ν : Type}

/-! ## Marks -/

/-- The entry after the files `xs` were invalidated elsewhere: one in progress
has noted them all. -/
def Entry.markAll (xs : List Location) (e : Entry ν) : Entry ν :=
  match e.state with
  | .inProgress owner marks => { e with state := .inProgress owner (marks ++ xs) }
  | _ => e

theorem Entry.markAll_nil (e : Entry ν) : e.markAll [] = e := by
  obtain ⟨id, listed, state⟩ := e
  cases state <;> simp [Entry.markAll]

theorem Entry.markAll_mark (x : Location) (xs : List Location) (e : Entry ν) :
    (e.mark x).markAll xs = e.markAll (x :: xs) := by
  obtain ⟨id, listed, state⟩ := e
  cases state <;> simp [Entry.markAll, Entry.mark]

namespace Cache

/-! ## One invalidation -/

/-- What the invalidation of the file at `l` makes of an entry. -/
def lose (l : Location) (e : Entry ν) : Entry ν :=
  let e := if holds l e then { e with listed := false } else e
  if e.listed then e.mark l else e

theorem invalidate_entries (c : Cache ν) (l : Location) :
    (c.invalidate l).entries = c.entries.map (lose l) := by
  simp [invalidate, lose]

theorem getElem?_invalidate (c : Cache ν) (l : Location) (s : Serial) :
    (c.invalidate l).entries[s]? = (c.entries[s]?).map (lose l) := by
  rw [invalidate_entries, List.getElem?_map]

theorem Entry.mark_id (l : Location) (e : Entry ν) : (e.mark l).id = e.id := by
  unfold Entry.mark
  split <;> rfl

theorem Entry.mark_listed (l : Location) (e : Entry ν) : (e.mark l).listed = e.listed := by
  unfold Entry.mark
  split <;> rfl

theorem Entry.mark_value? (l : Location) (e : Entry ν) : (e.mark l).value? = e.value? := by
  unfold Entry.mark
  split
  · next h => simp [Entry.value?, h]
  · rfl

theorem lose_of_holds {l : Location} {e : Entry ν} (h : holds l e = true) :
    lose l e = { e with listed := false } := by
  simp [lose, h]

theorem lose_of_not_holds {l : Location} {e : Entry ν} (h : holds l e = false) :
    lose l e = if e.listed then e.mark l else e := by
  simp [lose, h]

theorem lose_id (l : Location) (e : Entry ν) : (lose l e).id = e.id := by
  cases h : holds l e with
  | true => rw [lose_of_holds h]
  | false =>
      rw [lose_of_not_holds h]
      split
      · exact Entry.mark_id l e
      · rfl

theorem lose_listed (l : Location) (e : Entry ν) :
    (lose l e).listed = true ↔ e.listed = true ∧ e.id.location ≠ l := by
  cases h : holds l e with
  | true =>
      rw [lose_of_holds h]
      simp [((holds_iff l e).mp h).2]
  | false =>
      have hn : ¬ (e.listed = true ∧ e.id.location = l) := by
        rw [← holds_iff, h]
        simp
      rw [lose_of_not_holds h]
      split
      · next hl =>
          rw [Entry.mark_listed]
          exact ⟨fun _ => ⟨hl, fun he => hn ⟨hl, he⟩⟩, fun _ => hl⟩
      · next hl => exact ⟨fun h' => absurd h' hl, fun h' => h'.1⟩

theorem lose_value? (l : Location) (e : Entry ν) : (lose l e).value? = e.value? := by
  cases h : holds l e with
  | true =>
      rw [lose_of_holds h]
      rfl
  | false =>
      rw [lose_of_not_holds h]
      split
      · exact Entry.mark_value? l e
      · rfl

/-- What an entry in progress looks like after an invalidation. Only one that stays in
the map is marked. -/
theorem lose_inProgress {l : Location} {e : Entry ν} {owner : Thread} {marks : List Location}
    (h : e.state = .inProgress owner marks) :
    (lose l e).state = if (lose l e).listed then .inProgress owner (marks ++ [l])
      else .inProgress owner marks := by
  cases hh : holds l e with
  | true =>
      rw [lose_of_holds hh]
      simpa using h
  | false =>
      rw [lose_of_not_holds hh]
      cases hl : e.listed with
      | true => simp [Entry.mark, h, hl]
      | false => simp [h, hl]

theorem lose_done {l : Location} {e : Entry ν} {v : ν} :
    (lose l e).state = .done v ↔ e.state = .done v := by
  rw [← Entry.value?_eq_some, ← Entry.value?_eq_some, lose_value?]

theorem lose_uncomputed {l : Location} {e : Entry ν} (h : e.state = .uncomputed) :
    (lose l e).state = .uncomputed := by
  cases hh : holds l e with
  | true =>
      rw [lose_of_holds hh]
      exact h
  | false =>
      rw [lose_of_not_holds hh]
      split
      · simp [Entry.mark, h]
      · exact h

theorem inProgress_of_lose {l : Location} {e : Entry ν} {owner : Thread} {marks : List Location}
    (h : (lose l e).state = .inProgress owner marks) :
    ∃ marks', e.state = .inProgress owner marks' := by
  cases hs : e.state with
  | uncomputed => cases (lose_uncomputed hs).symm.trans h
  | done v => cases (lose_done.mpr hs).symm.trans h
  | inProgress owner' marks' =>
      refine ⟨marks', ?_⟩
      rw [lose_inProgress hs] at h
      split at h
      · cases h
        rfl
      · cases h
        rfl

/-- What the map holds after an invalidation: the entries for other files, and those in
progress are marked. -/
theorem holds_invalidate (c : Cache ν) (x l : Location) (s : Serial) (e' : Entry ν) :
    (c.invalidate x).Holds l s e' ↔ ∃ e, c.Holds l s e ∧ l ≠ x ∧ e' = e.mark x := by
  unfold Holds
  rw [getElem?_invalidate, Option.map_eq_some_iff]
  constructor
  · rintro ⟨⟨e, he, rfl⟩, hl, rfl⟩
    obtain ⟨hle, hne⟩ := (lose_listed x e).mp hl
    have hx : holds x e = false := by
      by_contra h
      exact hne ((holds_iff x e).mp (by simpa using h)).2
    rw [lose_id]
    exact ⟨e, ⟨he, hle, rfl⟩, hne, by rw [lose_of_not_holds hx, if_pos hle]⟩
  · rintro ⟨e, ⟨he, hl, rfl⟩, hne, rfl⟩
    have hx : holds x e = false := by
      by_contra h
      exact hne ((holds_iff x e).mp (by simpa using h)).2
    refine ⟨⟨e, he, by rw [lose_of_not_holds hx, if_pos hl]⟩, ?_, ?_⟩
    · rw [Entry.mark_listed]
      exact hl
    · rw [Entry.mark_id]

theorem Lone.invalidate {c : Cache ν} (hc : c.Lone) (l : Location) : (c.invalidate l).Lone := by
  have old : ∀ l' s e, (c.invalidate l).Holds l' s e → ∃ f, c.Holds l' s f := by
    rintro l' s e ⟨he, hl, hid⟩
    rw [getElem?_invalidate, Option.map_eq_some_iff] at he
    obtain ⟨f, hf, rfl⟩ := he
    exact ⟨f, hf, ((lose_listed l f).mp hl).1, lose_id l f ▸ hid⟩
  intro l' s e t f he hf
  obtain ⟨e', he'⟩ := old l' s e he
  obtain ⟨f', hf'⟩ := old l' t f hf
  exact hc l' s e' t f' he' hf'

theorem invalidate_evolves (fresh : ν → Prop) (c : Cache ν) (l : Location) :
    c.Evolves fresh [l] (c.invalidate l) where
  entry s e he := by
    refine ⟨lose l e, by rw [getElem?_invalidate, he]; rfl, lose_id l e, ?_⟩
    rw [lose_listed, List.mem_singleton]
  done s e e' v he he' hv := by
    rw [getElem?_invalidate, he] at he'
    obtain rfl := Option.some.inj he'
    exact lose_done.mpr hv
  marks s e e' owner ms he he' hs hl := by
    rw [getElem?_invalidate, he] at he'
    obtain rfl := Option.some.inj he'
    rw [lose_inProgress hs, if_pos hl]
  made s e' v he' hv := by
    rw [getElem?_invalidate, Option.map_eq_some_iff] at he'
    obtain ⟨e, he, rfl⟩ := he'
    exact Or.inl ⟨e, he, lose_done.mp hv⟩
  busy s e' owner ms he' hs := by
    rw [getElem?_invalidate, Option.map_eq_some_iff] at he'
    obtain ⟨e, he, rfl⟩ := he'
    obtain ⟨ms', hs'⟩ := inProgress_of_lose hs
    exact ⟨e, ms', he, hs'⟩

/-! ## Several invalidations -/

theorem Lone.foldl_invalidate {c : Cache ν} (hc : c.Lone) (xs : List Location) :
    (xs.foldl Cache.invalidate c).Lone := by
  induction xs generalizing c with
  | nil => exact hc
  | cons x xs ih => exact ih (hc.invalidate x)

theorem foldl_invalidate_evolves (fresh : ν → Prop) (c : Cache ν) (xs : List Location) :
    c.Evolves fresh xs (xs.foldl invalidate c) := by
  induction xs generalizing c with
  | nil => exact .refl fresh c
  | cons x xs ih => exact (invalidate_evolves fresh c x).trans (ih (c.invalidate x))

/-- The values left after some invalidations are those of the other files. -/
theorem peek_foldl_invalidate {c : Cache ν} (hc : c.Lone) (xs : List Location) (l : Location)
    (v : ν) :
    (xs.foldl invalidate c).peek l = some v ↔ c.peek l = some v ∧ l ∉ xs := by
  have h := foldl_invalidate_evolves (fun _ => False) c xs
  have hc' := hc.foldl_invalidate xs
  constructor
  · intro hp
    exact (h.peek_inv hc hc' hp).resolve_right id
  · rintro ⟨hp, hl⟩
    exact h.peek hc hc' hp hl

theorem peek_invalidate {c : Cache ν} (hc : c.Lone) (x l : Location) (v : ν) :
    (c.invalidate x).peek l = some v ↔ c.peek l = some v ∧ l ≠ x := by
  simpa using peek_foldl_invalidate hc [x] l v

/-- What the map holds after some invalidations. -/
theorem holds_foldl_invalidate (c : Cache ν) (xs : List Location) (l : Location) (s : Serial)
    (e' : Entry ν) :
    (xs.foldl invalidate c).Holds l s e' ↔ ∃ e, c.Holds l s e ∧ l ∉ xs ∧ e' = e.markAll xs := by
  induction xs generalizing c with
  | nil => simp [Entry.markAll_nil]
  | cons x xs ih =>
      rw [List.foldl_cons, ih]
      simp only [holds_invalidate, List.mem_cons, not_or]
      constructor
      · rintro ⟨_, ⟨e, he, hne, rfl⟩, hl, rfl⟩
        exact ⟨e, he, ⟨hne, hl⟩, Entry.markAll_mark x xs e⟩
      · rintro ⟨e, he, ⟨hne, hl⟩, rfl⟩
        exact ⟨_, ⟨e, he, hne, rfl⟩, hl, (Entry.markAll_mark x xs e).symm⟩

/-! ## The rounds of the cascade -/

theorem mem_computed_map {c : Cache ν} (hc : c.Lone) (l : Location) (v : ν) :
    c.peek l = some v ↔ ∃ id, id.location = l ∧ (id, v) ∈ c.computed := by
  rw [peek_eq_some hc]
  constructor
  · rintro ⟨s, e, he, hv⟩
    exact ⟨e.id, he.2.2, (mem_computed e.id v).mpr ⟨s, e, ⟨he.1, he.2.1, rfl⟩, rfl, hv⟩⟩
  · rintro ⟨id, rfl, h⟩
    obtain ⟨s, e, he, -, hv⟩ := (mem_computed id v).mp h
    exact ⟨s, e, he, hv⟩

theorem computed_invalidate (c : Cache ν) (l : Location) :
    (c.invalidate l).computed = c.computed.filter (·.1.location ≠ l) := by
  unfold computed listed
  rw [invalidate_entries]
  induction c.entries with
  | nil => rfl
  | cons e es ih =>
      by_cases hl : (lose l e).listed = true
      · -- the entry is for another file and stays with its value
        obtain ⟨hle, hne⟩ := (lose_listed l e).mp hl
        rw [List.map_cons, List.filter_cons_of_pos hl, List.filter_cons_of_pos hle,
          List.filterMap_cons, List.filterMap_cons, lose_value?, lose_id, ih]
        cases e.value? with
        | none => rfl
        | some v => simp [hne]
      · rw [List.map_cons, List.filter_cons_of_neg hl, ih]
        by_cases hle : e.listed = true
        · -- the entry left the map, so it was the one for `l`
          have heq : e.id.location = l := by
            by_contra hne
            exact hl ((lose_listed l e).mpr ⟨hle, hne⟩)
          rw [List.filter_cons_of_pos hle, List.filterMap_cons]
          cases e.value? with
          | none => rfl
          | some v => simp [heq]
        · rw [List.filter_cons_of_neg hle]

theorem computed_invalidate_length {c : Cache ν} (hc : c.Lone) {l : Location} {v : ν}
    (h : c.peek l = some v) :
    (c.invalidate l).computed.length < c.computed.length := by
  obtain ⟨id, hid, hmem⟩ := (mem_computed_map hc l v).mp h
  rw [computed_invalidate, List.length_filter_lt_length_iff_exists]
  exact ⟨(id, v), hmem, by simp [hid]⟩

def dependents (c : Cache ν) (depends : ν → Location → Bool) (l : Location) : List Location :=
  (c.computed.filter fun entry => depends entry.2 l).map (·.1.location)

theorem mem_dependents {c : Cache ν} (hc : c.Lone) (depends : ν → Location → Bool)
    (l x : Location) :
    x ∈ c.dependents depends l ↔ ∃ v, c.peek x = some v ∧ depends v l = true := by
  unfold dependents
  simp only [List.mem_map, List.mem_filter, mem_computed_map hc, Prod.exists]
  constructor
  · rintro ⟨id, v, ⟨hmem, hd⟩, rfl⟩
    exact ⟨v, ⟨id, rfl, hmem⟩, hd⟩
  · rintro ⟨v, ⟨id, rfl, hmem⟩, hd⟩
    exact ⟨id, v, ⟨hmem, hd⟩, rfl⟩

/-- What holds before each round: the files to work off have values unless they were seen, the files
seen have none, and a value that depends on a file seen is that of a file to work off. -/
structure Worklist (depends : ν → Location → Bool) (pending seen : List Location)
    (c : Cache ν) : Prop where
  lone : c.Lone
  valued : ∀ x ∈ pending, x ∉ seen → ∃ v, c.peek x = some v
  gone : ∀ x ∈ seen, c.peek x = none
  listed : ∀ x ∈ seen, ∀ l v, c.peek l = some v → depends v x = true → l ∈ pending

theorem Worklist.round {depends : ν → Location → Bool} {rest seen : List Location} {c : Cache ν}
    {l : Location}
    (hw : ∀ x ∈ seen, ∀ l' v, c.peek l' = some v → depends v x = true → l' ∈ l :: rest)
    (hc : c.Lone) (hv : ∀ x ∈ rest, x ∉ seen → ∃ v, c.peek x = some v)
    (hg : ∀ x ∈ seen, c.peek x = none) :
    Worklist depends ((c.invalidate l).dependents depends l ++ rest)
      (l :: seen) (c.invalidate l) where
  lone := hc.invalidate l
  valued x hx hs := by
    rcases List.mem_append.mp hx with hx | hx
    · obtain ⟨v, hp, -⟩ := (mem_dependents (hc.invalidate l) depends l x).mp hx
      exact ⟨v, hp⟩
    · obtain ⟨hne, hs⟩ := not_or.mp (List.mem_cons.not.mp hs)
      obtain ⟨v, hp⟩ := hv x hx hs
      exact ⟨v, (peek_invalidate hc l x v).mpr ⟨hp, hne⟩⟩
  gone x hx := by
    cases hp : (c.invalidate l).peek x with
    | none => rfl
    | some v =>
        obtain ⟨hp', hne⟩ := (peek_invalidate hc l x v).mp hp
        rcases List.mem_cons.mp hx with rfl | hx
        · exact absurd rfl hne
        · rw [hg x hx] at hp'
          cases hp'
  listed x hx l' v hp hd := by
    rcases List.mem_cons.mp hx with rfl | hx
    · exact List.mem_append_left _ ((mem_dependents (hc.invalidate x) depends x l').mpr ⟨v, hp, hd⟩)
    · obtain ⟨hp', hne⟩ := (peek_invalidate hc l l' v).mp hp
      rcases List.mem_cons.mp (hw x hx l' v hp' hd) with rfl | hr
      · exact absurd rfl hne
      · exact List.mem_append_right _ hr

/-- The first file to work off that was not seen, and what comes after it. -/
theorem dropWhile_seen {pending seen : List Location} {l : Location} {rest : List Location}
    (hd : pending.dropWhile seen.contains = l :: rest) :
    l ∉ seen ∧ (∀ x ∈ l :: rest, x ∈ pending) ∧ ∀ x ∈ pending, x ∉ seen → x ∈ l :: rest := by
  have hsplit : pending = pending.takeWhile seen.contains ++ l :: rest := by
    rw [← hd, List.takeWhile_append_dropWhile]
  refine ⟨?_, ?_, ?_⟩
  · have hne : pending.dropWhile seen.contains ≠ [] := by
      rw [hd]
      simp
    have hhead := List.head_dropWhile_not seen.contains hne
    simpa [hd] using hhead
  · intro x hx
    rw [hsplit]
    exact List.mem_append_right _ hx
  · intro x hx hs
    rw [hsplit] at hx
    rcases List.mem_append.mp hx with hx | hx
    · exact absurd (List.contains_iff_mem.mp (List.mem_takeWhile_imp hx)) hs
    · exact hx

/-- What the rounds make of the files to work off: the files `xs` are invalidated, each once and
none that was seen. Nothing that is left depends on a file seen or invalidated, and whatever is
invalidated is one of the files to work off or has a value that depends on another one. -/
structure WorkedOff (depends : ν → Location → Bool) (pending seen : List Location) (c : Cache ν)
    (xs : List Location) : Prop where
  nodup : xs.Nodup
  unseen : ∀ x ∈ xs, x ∉ seen
  closed : ∀ x ∈ seen ++ xs, ∀ l v, (xs.foldl invalidate c).peek l = some v → depends v x = false
  reached : ∀ P : Location → Prop, (∀ x ∈ pending, P x) →
    (∀ x y v, P x → c.peek y = some v → depends v x = true → P y) → ∀ x ∈ xs, P x

/-- One round more. -/
theorem WorkedOff.cons {depends : ν → Location → Bool} {pending rest seen xs : List Location}
    {c : Cache ν} {l : Location} (hc : c.Lone) (hl : l ∉ seen) (hsub : ∀ x ∈ l :: rest, x ∈ pending)
    (h : WorkedOff depends ((c.invalidate l).dependents depends l ++ rest)
      (l :: seen) (c.invalidate l) xs) :
    WorkedOff depends pending seen c (l :: xs) where
  nodup := List.nodup_cons.mpr ⟨fun hx => h.unseen l hx (by simp), h.nodup⟩
  unseen x hx := by
    rcases List.mem_cons.mp hx with rfl | hx
    · exact hl
    · exact fun hs => h.unseen x hx (List.mem_cons_of_mem l hs)
  closed x hx := h.closed x (by
    simp only [List.mem_append, List.mem_cons] at hx ⊢
    tauto)
  reached P hP hstep x hx := by
    have hPl : P l := hP l (hsub l (by simp))
    have hold : ∀ y v, (c.invalidate l).peek y = some v → c.peek y = some v :=
      fun y v hp => ((peek_invalidate hc l y v).mp hp).1
    rcases List.mem_cons.mp hx with rfl | hx
    · exact hPl
    · refine h.reached P (fun y hy => ?_) (fun y z v hy hz => hstep y z v hy (hold z v hz)) x hx
      rcases List.mem_append.mp hy with hy | hy
      · obtain ⟨v, hp, hd⟩ := (mem_dependents (hc.invalidate l) depends l y).mp hy
        exact hstep l y v hPl (hold y v hp) hd
      · exact hP y (hsub y (List.mem_cons_of_mem l hy))

/-- The rounds end with every file worked off. -/
theorem cascadeFrom_eq_foldl (depends : ν → Location → Bool) (rounds : Nat)
    (pending seen : List Location) (c : Cache ν) (h : Worklist depends pending seen c)
    (hr : c.computed.length ≤ rounds) :
    ∃ xs : List Location, cascadeFrom depends rounds pending seen c = xs.foldl invalidate c ∧
      WorkedOff depends pending seen c xs := by
  induction rounds generalizing pending seen c with
  | zero =>
      -- no values are left, so none depends on anything
      have hnil : c.computed = [] := List.length_eq_zero_iff.mp (Nat.le_zero.mp hr)
      refine ⟨[], rfl, List.nodup_nil, by simp, fun x _ l v hp => ?_, by simp⟩
      obtain ⟨id, -, hmem⟩ := (mem_computed_map h.lone l v).mp hp
      rw [hnil] at hmem
      cases hmem
  | succ rounds ih =>
      cases hd : pending.dropWhile seen.contains with
      | nil =>
          refine ⟨[], by simp [cascadeFrom, hd], List.nodup_nil, by simp,
            fun x hx l v hp => ?_, by simp⟩
          rw [List.append_nil] at hx
          by_contra hdep
          -- the value is that of a file to work off, and all of those were seen
          have hl := h.listed x hx l v hp (by simpa using hdep)
          have hseen := List.dropWhile_eq_nil_iff.mp hd l hl
          cases (h.gone l (List.contains_iff_mem.mp hseen)).symm.trans hp
      | cons l rest =>
          obtain ⟨hl, hsub, hsup⟩ := dropWhile_seen hd
          have hround : Worklist depends ((c.invalidate l).dependents depends l ++ rest) (l :: seen)
              (c.invalidate l) := by
            refine Worklist.round (fun x hx l' v hp hdep => ?_) h.lone
              (fun x hx hs => h.valued x (hsub x (List.mem_cons_of_mem l hx)) hs) h.gone
            refine hsup l' (h.listed x hx l' v hp hdep) fun hs => ?_
            rw [h.gone l' hs] at hp
            cases hp
          -- the round takes the value of `l` out of the map, so one round less
          -- suffices for the rest
          obtain ⟨v, hv⟩ := h.valued l (hsub l (by simp)) hl
          have hlt := computed_invalidate_length h.lone hv
          obtain ⟨xs, hxs, hworked⟩ := ih _ _ _ hround (by omega)
          refine ⟨l :: xs, ?_, hworked.cons h.lone hl hsub⟩
          rw [List.foldl_cons, ← hxs]
          simp [cascadeFrom, hd, dependents]

/-! ## The whole cascade -/

/-- The files that a change of the file at `l` reaches: `l` itself, and every file whose value
depends on one that is reached. -/
inductive Reaches (c : Cache ν) (depends : ν → Location → Bool)
    (l : Location) : Location → Prop where
  | self : Reaches c depends l l
  | dependent {x y : Location} {v : ν} :
      Reaches c depends l x → c.peek y = some v → depends v x = true →
      Reaches c depends l y

/-- The cascade from the file at `l` invalidates exactly the files that the change reaches,
each of them once. -/
theorem cascade_eq_foldl (depends : ν → Location → Bool) {c : Cache ν} (hc : c.Lone)
    (l : Location) :
    ∃ xs : List Location, c.cascade depends l = xs.foldl invalidate c ∧ xs.Nodup ∧
      ∀ x, x ∈ xs ↔ c.Reaches depends l x := by
  have hround :
      Worklist depends ((c.invalidate l).dependents depends l ++ []) [l] (c.invalidate l) :=
    Worklist.round (by simp) hc (by simp) (by simp)
  have hlen : (c.invalidate l).computed.length ≤ c.entries.length := by
    calc (c.invalidate l).computed.length
        ≤ (c.invalidate l).listed.length := List.length_filterMap_le _ _
      _ ≤ (c.invalidate l).entries.length := List.length_filter_le _ _
      _ = c.entries.length := by rw [invalidate_entries, List.length_map]
  obtain ⟨xs, hxs, hworked⟩ := cascadeFrom_eq_foldl depends _ _ _ _ hround hlen
  have h : WorkedOff depends [l] [] c (l :: xs) := hworked.cons hc (by simp) (by simp)
  refine ⟨l :: xs, ?_, h.nodup, fun x => ⟨fun hx => ?_, fun hx => ?_⟩⟩
  · rw [List.foldl_cons, ← hxs]
    simp [cascade, cascadeFrom, dependents]
  · refine h.reached (c.Reaches depends l) (fun y hy => ?_)
      (fun y z v hy hz hd => .dependent hy hz hd) x hx
    rw [List.mem_singleton.mp hy]
    exact .self
  · induction hx with
    | self => simp
    | @dependent y z v _ hz hd ih =>
        -- otherwise the value would be left, although it depends on a file that was invalidated
        by_contra hn
        have hfalse :=
          h.closed y (by simpa using ih) z v ((peek_foldl_invalidate hc _ z v).mpr ⟨hz, hn⟩)
        rw [hd] at hfalse
        cases hfalse

/-- No value that is left depends on a file that the change reaches. -/
theorem Reaches.not_depends {depends : ν → Location → Bool} {c : Cache ν} (hc : c.Lone)
    {l : Location} {xs : List Location} (hxs : ∀ x, x ∈ xs ↔ c.Reaches depends l x) {x y : Location}
    {v : ν} (hx : c.Reaches depends l x) (hy : (xs.foldl invalidate c).peek y = some v) :
    depends v x = false := by
  obtain ⟨hp, hn⟩ := (peek_foldl_invalidate hc xs y v).mp hy
  by_contra hd
  exact hn ((hxs y).mpr (.dependent hx hp (by simpa using hd)))

end Cache

end FSharpWorkspace
