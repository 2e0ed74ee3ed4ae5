import FSharpWorkspace.Resolution
import Mathlib.Tactic.Common
/-!
# The search through held results

A search through the held results of a resolution enters each file once, so of several results for
one file it looks at one only. `enter` is the list of results that it looks at. `derivedFrom` says
whether one of them depends on the changed file (`derivedFrom_iff`): which results are looked at
does not depend on that file.

What is entered is closed under references up to the file (`enter_closed`), and if no
result that is entered depends on a file of `E`, each of them is held along a trail that
avoids `E` (`enter_trail`).
-/

set_option autoImplicit false

namespace FSharpWorkspace.Resolution

/-! ## Held results -/

/-- The result `q` is held, directly or through others, by one of `roots`; `path` are the files on
the way to it, and no file of `E` is on the way or its own. -/
inductive Trail (E : List Location) :
    List (Option Location × Resolution) → List Location → Resolution → Prop where
  | root {roots : List (Option Location × Resolution)} {o : Option Location} {r : Resolution} :
      (o, r) ∈ roots → r.id.location ∉ E → Trail E roots [] r
  | under {roots : List (Option Location × Resolution)} {o : Option Location} {r q : Resolution}
      {path : List Location} :
      (o, r) ∈ roots → r.id.location ∉ E → Trail E r.references path q →
      Trail E roots (r.id.location :: path) q

theorem Trail.avoids {E : List Location} {roots : List (Option Location × Resolution)}
    {path : List Location} {q : Resolution} (h : Trail E roots path q) : q.id.location ∉ E := by
  induction h with
  | root _ hE => exact hE
  | under _ _ _ ih => exact ih

theorem Trail.avoiding {E F : List Location} {roots : List (Option Location × Resolution)}
    {path : List Location} {q : Resolution} (h : Trail E roots path q) (hF : ∀ l ∈ F, l ∈ E) :
    Trail F roots path q := by
  induction h with
  | root hr hE => exact .root hr fun hl => hE (hF _ hl)
  | under hr hE _ ih => exact .under hr (fun hl => hE (hF _ hl)) ih

theorem Trail.mono {E : List Location} {roots roots' : List (Option Location × Resolution)}
    {path : List Location} {q : Resolution} (h : Trail E roots path q)
    (hr : ∀ x ∈ roots, x ∈ roots') :
    Trail E roots' path q := by
  cases h with
  | root h hE => exact .root (hr _ h) hE
  | under h hE ht => exact .under (hr _ h) hE ht

theorem Trail.of_append {E : List Location} {roots roots' : List (Option Location × Resolution)}
    {path : List Location} {q : Resolution} (h : Trail E (roots ++ roots') path q) :
    Trail E roots path q ∨ Trail E roots' path q := by
  cases h with
  | root h hE =>
      rcases List.mem_append.mp h with h | h
      · exact Or.inl (.root h hE)
      · exact Or.inr (.root h hE)
  | under h hE ht =>
      rcases List.mem_append.mp h with h | h
      · exact Or.inl (.under h hE ht)
      · exact Or.inr (.under h hE ht)

theorem Trail.snoc {E : List Location} {roots : List (Option Location × Resolution)}
    {path : List Location} {q p : Resolution} {o : Option Location} (h : Trail E roots path q)
    (hp : (o, p) ∈ q.references) (hE : p.id.location ∉ E) :
    Trail E roots (path ++ [q.id.location]) p := by
  induction h with
  | root hr hrE => exact .under hr hrE (.root hp hE)
  | under hr hrE _ ih => exact .under hr hrE (ih hp)

/-- The result `r` may hold `p`: it declares it, and it is the later one. -/
structure MayHold (r p : Resolution) : Prop where
  declared : p.id ∈ r.declared
  project : p.id.kind = .project
  stamp : p.stamp < r.stamp

/-- Every reference that is held, at any depth, may be held by its holder. -/
inductive Grounded : Resolution → Prop where
  | mk {r : Resolution} :
      (∀ o p, (o, p) ∈ r.references → r.MayHold p) →
        (∀ o p, (o, p) ∈ r.references → Grounded p) → Grounded r

theorem Grounded.mayHold {r p : Resolution} {o : Option Location} (h : r.Grounded)
    (hp : (o, p) ∈ r.references) :
    r.MayHold p := by
  cases h with
  | mk h _ => exact h o p hp

theorem Grounded.held {r p : Resolution} {o : Option Location} (h : r.Grounded)
    (hp : (o, p) ∈ r.references) :
    p.Grounded := by
  cases h with
  | mk _ h => exact h o p hp

/-- Along a trail stamps fall. -/
theorem Trail.stamp_lt {E : List Location} {r q : Resolution} {path : List Location}
    (hr : r.Grounded) (h : Trail E r.references path q) : q.stamp < r.stamp := by
  generalize hroots : r.references = roots at h
  induction h generalizing r with
  | root hp _ =>
      subst hroots
      exact (hr.mayHold hp).stamp
  | @under _ _ p q _ hp _ _ ih =>
      subst hroots
      calc q.stamp
          < p.stamp := ih (hr.held hp) rfl
        _ < r.stamp := (hr.mayHold hp).stamp

theorem Trail.grounded {E : List Location} {r q : Resolution} {path : List Location}
    (hr : r.Grounded) (h : Trail E r.references path q) : q.Grounded ∧ q.id.kind = .project := by
  generalize hroots : r.references = roots at h
  induction h generalizing r with
  | root hp _ =>
      subst hroots
      exact ⟨hr.held hp, (hr.mayHold hp).project⟩
  | under hp _ _ ih =>
      subst hroots
      exact ih (hr.held hp) rfl

/-- Induction over a result and the results that it holds. -/
@[elab_as_elim]
theorem held_induction {P : Resolution → Prop} (r : Resolution)
    (h : ∀ r, (∀ o p, (o, p) ∈ r.references → P p) → P r) : P r :=
  h r fun o p _ => held_induction p h
termination_by sizeOf r
decreasing_by
  have h₁ := List.sizeOf_lt_of_mem (by assumption : (o, p) ∈ r.references)
  have h₂ : sizeOf (o, p) = 1 + sizeOf o + sizeOf p := rfl
  cases r
  simp only [mk.sizeOf_spec] at *
  omega

/-! ## What a search enters -/

mutual

/-- The results entered by a search through `r`, the latest first, where those of
`entered` came before. -/
def enter (r : Resolution) (entered : List Resolution) : List Resolution :=
  match r with
  | { stamp, id, sources, flags, references, declared, cycle, target, loadTime, diagnostics } =>
    if entered.any (·.id.location = id.location) then entered
    else enterAll references
      (⟨stamp, id, sources, flags, references, declared, cycle, target,
        loadTime, diagnostics⟩ :: entered)

/-- `enter` on every result of a list, from its end. -/
def enterAll (references : List (Option Location × Resolution))
    (entered : List Resolution) : List Resolution :=
  match references with
  | [] => entered
  | (_, r) :: rest => enter r (enterAll rest entered)

end

def Entered (entered : List Resolution) (l : Location) : Prop := ∃ q ∈ entered, q.id.location = l

theorem enter_of_entered {r : Resolution} {entered : List Resolution}
    (h : Entered entered r.id.location) :
    enter r entered = entered := by
  obtain ⟨q, hq, hl⟩ := h
  have ha : entered.any (·.id.location = r.id.location) = true :=
    List.any_eq_true.mpr ⟨q, hq, by simpa using hl⟩
  cases r
  rw [enter, if_pos ha]

theorem enter_of_not_entered {r : Resolution} {entered : List Resolution}
    (h : ¬ Entered entered r.id.location) :
    enter r entered = enterAll r.references (r :: entered) := by
  have ha : ¬ entered.any (·.id.location = r.id.location) = true := by
    intro ha
    obtain ⟨q, hq, hl⟩ := List.any_eq_true.mp ha
    exact h ⟨q, hq, by simpa using hl⟩
  cases r
  rw [enter, if_neg ha]

theorem enterAll_cons (o : Option Location) (r : Resolution)
    (rest : List (Option Location × Resolution)) (entered : List Resolution) :
    enterAll ((o, r) :: rest) entered = enter r (enterAll rest entered) := by
  rw [enterAll]

/-- What holds for the search through each result of a list holds for the list. -/
theorem enterAll_subset {references : List (Option Location × Resolution)}
    (h : ∀ o p, (o, p) ∈ references → ∀ (entered : List Resolution),
      ∀ q ∈ entered, q ∈ enter p entered) (entered : List Resolution) :
    ∀ q ∈ entered, q ∈ enterAll references entered := by
  induction references with
  | nil =>
      intro q hq
      rw [enterAll]
      exact hq
  | cons entry rest ih =>
      obtain ⟨o, r⟩ := entry
      intro q hq
      rw [enterAll_cons]
      exact h o r (by simp) _ q (ih (fun o p hp => h o p (List.mem_cons_of_mem _ hp)) q hq)

theorem subset_enter (r : Resolution) :
    ∀ (entered : List Resolution), ∀ q ∈ entered, q ∈ enter r entered := by
  induction r using held_induction with
  | h r ih =>
      intro entered q hq
      by_cases hr : Entered entered r.id.location
      · rw [enter_of_entered hr]
        exact hq
      · rw [enter_of_not_entered hr]
        exact enterAll_subset ih _ q (List.mem_cons_of_mem r hq)

theorem subset_enterAll (references : List (Option Location × Resolution))
    (entered : List Resolution) :
    ∀ q ∈ entered, q ∈ enterAll references entered :=
  enterAll_subset (fun _ p _ => subset_enter p) entered

theorem Entered.mono {entered entered' : List Resolution} {l : Location} (h : Entered entered l)
    (hs : ∀ q ∈ entered, q ∈ entered') : Entered entered' l := by
  obtain ⟨q, hq, hl⟩ := h
  exact ⟨q, hs q hq, hl⟩

theorem entered_enter (r : Resolution) (entered : List Resolution) :
    Entered (enter r entered) r.id.location := by
  by_cases hr : Entered entered r.id.location
  · rw [enter_of_entered hr]
    exact hr
  · rw [enter_of_not_entered hr]
    exact ⟨r, subset_enterAll _ _ r (by simp), rfl⟩

theorem entered_enterAll {references : List (Option Location × Resolution)} {o : Option Location}
    {p : Resolution} (hp : (o, p) ∈ references) (entered : List Resolution) :
    Entered (enterAll references entered) p.id.location := by
  induction references with
  | nil => cases hp
  | cons entry rest ih =>
      obtain ⟨o', r⟩ := entry
      rw [enterAll_cons]
      rcases List.mem_cons.mp hp with he | hp
      · cases he
        exact entered_enter p _
      · exact (ih hp).mono (subset_enter r _)

def Closed (entered : List Resolution) (q : Resolution) : Prop :=
  ∀ o p, (o, p) ∈ q.references → Entered entered p.id.location

theorem Closed.mono {entered entered' : List Resolution} {q : Resolution} (h : Closed entered q)
    (hs : ∀ q ∈ entered, q ∈ entered') : Closed entered' q :=
  fun o p hp => (h o p hp).mono hs

theorem enterAll_closed_of {references : List (Option Location × Resolution)}
    (h : ∀ o p, (o, p) ∈ references → ∀ (entered : List Resolution), ∀ q ∈ enter p entered,
      q ∈ entered ∨ Closed (enter p entered) q)
    (entered : List Resolution) :
    ∀ q ∈ enterAll references entered, q ∈ entered ∨ Closed (enterAll references entered) q := by
  induction references with
  | nil =>
      intro q hq
      rw [enterAll] at hq
      exact Or.inl hq
  | cons entry rest ih =>
      obtain ⟨o, r⟩ := entry
      intro q hq
      rw [enterAll_cons] at hq ⊢
      rcases h o r (by simp) _ q hq with hq | hq
      · rcases ih (fun o p hp => h o p (List.mem_cons_of_mem _ hp)) q hq with hq | hq
        · exact Or.inl hq
        · exact Or.inr (hq.mono (subset_enter r _))
      · exact Or.inr hq

/-- A result that is newly entered has its references entered as well. -/
theorem enter_closed (r : Resolution) : ∀ (entered : List Resolution), ∀ q ∈ enter r entered,
    q ∈ entered ∨ Closed (enter r entered) q := by
  induction r using held_induction with
  | h r ih =>
      intro entered q hq
      by_cases hr : Entered entered r.id.location
      · rw [enter_of_entered hr] at hq
        exact Or.inl hq
      · rw [enter_of_not_entered hr] at hq ⊢
        rcases enterAll_closed_of ih _ q hq with hq | hq
        · rcases List.mem_cons.mp hq with rfl | hq
          · exact Or.inr fun o p hp => entered_enterAll hp _
          · exact Or.inl hq
        · exact Or.inr hq

/-! ## Trails to what is entered -/

/-- A result that depends on no file of `E`, and is not in `E`, has no reference in `E`. -/
theorem Grounded.avoids {E : List Location} {r p : Resolution} {o : Option Location}
    (hg : r.Grounded) (hE : r.id.location ∉ E) (hd : ∀ m ∈ E, r.dependsOn m = false)
    (hp : (o, p) ∈ r.references) :
    p.id.location ∉ E := by
  intro hm
  have hdep := hd _ hm
  have hne : r.id.location ≠ p.id.location := fun he => hE (he ▸ hm)
  have hdecl : Identity.isAmong p.id.location r.declared = true :=
    List.any_eq_true.mpr ⟨p.id, (hg.mayHold hp).declared, by simp⟩
  simp [dependsOn, hne, hdecl] at hdep

theorem enterAll_trail_of {E : List Location} {references : List (Option Location × Resolution)}
    (h : ∀ o p, (o, p) ∈ references → ∀ (entered : List Resolution),
      (∀ q ∈ enter p entered, ∀ m ∈ E, q.dependsOn m = false) →
      ∀ q ∈ enter p entered, q ∈ entered ∨ q = p ∨
      ∃ path, Trail E p.references path q ∧ ∀ x ∈ path, Entered (enter p entered) x)
    (hE : ∀ o p, (o, p) ∈ references → p.id.location ∉ E) (entered : List Resolution)
    (hd : ∀ q ∈ enterAll references entered, ∀ m ∈ E, q.dependsOn m = false) :
    ∀ q ∈ enterAll references entered, q ∈ entered ∨
      ∃ path, Trail E references path q ∧ ∀ x ∈ path, Entered (enterAll references entered) x := by
  induction references with
  | nil =>
      intro q hq
      rw [enterAll] at hq
      exact Or.inl hq
  | cons entry rest ih =>
      obtain ⟨o, r⟩ := entry
      intro q hq
      rw [enterAll_cons] at hq hd ⊢
      have hr : (o, r) ∈ (o, r) :: rest := by simp
      rcases h o r hr _ hd q hq with hq | rfl | ⟨path, ht, hpath⟩
      · -- entered by the rest of the list, or before
        have hrest := ih (fun o p hp => h o p (List.mem_cons_of_mem _ hp))
          (fun o p hp => hE o p (List.mem_cons_of_mem _ hp))
            (fun q hq => hd q (subset_enter r _ q hq)) q hq
        rcases hrest with hq | ⟨path, ht, hpath⟩
        · exact Or.inl hq
        · exact Or.inr ⟨path, ht.mono fun x hx => List.mem_cons_of_mem _ hx,
            fun x hx => (hpath x hx).mono (subset_enter r _)⟩
      · exact Or.inr ⟨[], .root hr (hE o q hr), by simp⟩
      · refine Or.inr ⟨r.id.location :: path, .under hr (hE o r hr) ht, fun x hx => ?_⟩
        rcases List.mem_cons.mp hx with rfl | hx
        · exact entered_enter r _
        · exact hpath x hx

/-- If nothing that is entered depends on a file of `E`, then all of it is held along trails that
avoid `E` and whose files are entered. -/
theorem enter_trail {E : List Location} (r : Resolution) : r.Grounded → r.id.location ∉ E →
    ∀ (entered : List Resolution), (∀ q ∈ enter r entered, ∀ m ∈ E, q.dependsOn m = false) →
    ∀ q ∈ enter r entered, q ∈ entered ∨ q = r ∨
      ∃ path, Trail E r.references path q ∧ ∀ x ∈ path, Entered (enter r entered) x := by
  induction r using held_induction with
  | h r ih =>
      intro hg hE entered hd q hq
      by_cases hr : Entered entered r.id.location
      · rw [enter_of_entered hr] at hq
        exact Or.inl hq
      · rw [enter_of_not_entered hr] at hq hd ⊢
        have hself := hd r (subset_enterAll _ _ r (by simp))
        have hrefs : ∀ o p, (o, p) ∈ r.references → p.id.location ∉ E :=
          fun o p hp => hg.avoids hE hself hp
        rcases enterAll_trail_of
          (fun o p hp => ih o p hp (hg.held hp) (hrefs o p hp)) hrefs _ hd q hq with
          hq | hq
        · rcases List.mem_cons.mp hq with rfl | hq
          · exact Or.inr (Or.inl rfl)
          · exact Or.inl hq
        · exact Or.inr (Or.inr hq)

/-! ## The answer of the search -/

/-- The search for a dependent result, told by what it enters. -/
def Searches (changed : Location) (found : Option (List Location))
    (entered : List Resolution) : Prop :=
  found = if entered.any (·.dependsOn changed) then none else some (entered.map (·.id.location))

theorem Searches.of_none {changed : Location} {entered : List Resolution}
    (h : ∃ q ∈ entered, q.dependsOn changed = true) : Searches changed none entered := by
  unfold Searches
  rw [if_pos (List.any_eq_true.mpr h)]

theorem searchDependents_searches {changed : Location}
    {references : List (Option Location × Resolution)}
    (h : ∀ o p, (o, p) ∈ references → ∀ (entered : List Resolution),
      (∀ q ∈ entered, q.dependsOn changed = false) →
      Searches changed (searchDependent changed p (entered.map (·.id.location))) (enter p entered))
    (entered : List Resolution) (hd : ∀ q ∈ entered, q.dependsOn changed = false) :
    Searches changed (searchDependents changed references (entered.map (·.id.location)))
      (enterAll references entered) := by
  induction references with
  | nil =>
      unfold Searches
      rw [enterAll, searchDependents, if_neg]
      simpa using hd
  | cons entry rest ih =>
      obtain ⟨o, r⟩ := entry
      have hrest := ih fun o p hp => h o p (List.mem_cons_of_mem _ hp)
      rw [enterAll_cons, searchDependents, hrest]
      -- the search stops where it found something, but what it would have entered after that
      -- does not matter
      by_cases hany : (enterAll rest entered).any (·.dependsOn changed) = true
      · obtain ⟨q, hq, hqd⟩ := List.any_eq_true.mp hany
        rw [if_pos hany]
        exact .of_none ⟨q, subset_enter r _ q hq, hqd⟩
      · rw [if_neg hany, Option.bind_some]
        exact h o r (by simp) _ (by simpa using hany)

theorem searchDependent_searches {changed : Location} (r : Resolution) :
    ∀ (entered : List Resolution), (∀ q ∈ entered, q.dependsOn changed = false) →
      Searches changed
        (searchDependent changed r (entered.map (·.id.location))) (enter r entered) := by
  induction r using held_induction with
  | h r ih =>
      intro entered hd
      rw [searchDependent_eq]
      by_cases hr : Entered entered r.id.location
      · have hc : (entered.map (·.id.location)).contains r.id.location = true := by
          obtain ⟨q, hq, hl⟩ := hr
          exact List.contains_iff_mem.mpr (List.mem_map.mpr ⟨q, hq, hl⟩)
        rw [if_pos hc, enter_of_entered hr]
        unfold Searches
        rw [if_neg]
        simpa using hd
      · have hc : ¬ (entered.map (·.id.location)).contains r.id.location = true := by
          intro hc
          obtain ⟨q, hq, hl⟩ := List.mem_map.mp (List.contains_iff_mem.mp hc)
          exact hr ⟨q, hq, hl⟩
        rw [if_neg hc, enter_of_not_entered hr]
        by_cases hself : r.dependsOn changed = true
        · rw [if_pos hself]
          exact .of_none ⟨r, subset_enterAll _ _ r (by simp), hself⟩
        · -- `r` itself is entered before its references are searched
          rw [if_neg hself]
          refine searchDependents_searches ih (r :: entered) fun q hq => ?_
          rcases List.mem_cons.mp hq with rfl | hq
          · simpa using hself
          · exact hd q hq

/-- A result is derived from a file if something that the search enters depends on it. -/
theorem derivedFrom_iff (r : Resolution) (changed : Location) :
    r.derivedFrom changed = true ↔ ∃ q ∈ enter r [], q.dependsOn changed = true := by
  have h : Searches changed (searchDependent changed r []) (enter r []) :=
    searchDependent_searches r [] (by simp)
  unfold derivedFrom
  rw [show searchDependent changed r [] = _ from h]
  split
  · next hany => simpa using hany
  · next hany => simpa using hany

/-- A result that is derived from a file holds one that depends on it, or does so itself. -/
theorem trail_of_derivedFrom {r : Resolution} {changed : Location} (hg : r.Grounded)
    (h : r.derivedFrom changed = true) :
    ∃ q, q.dependsOn changed = true ∧ (q = r ∨ ∃ path, Trail [] r.references path q) := by
  obtain ⟨q, hq, hd⟩ := (derivedFrom_iff r changed).mp h
  rcases enter_trail (E := []) r hg (by simp) [] (by simp) q hq with hq | rfl | ⟨path, ht, -⟩
  · cases hq
  · exact ⟨q, hd, Or.inl rfl⟩
  · exact ⟨q, hd, Or.inr ⟨path, ht⟩⟩

end FSharpWorkspace.Resolution
