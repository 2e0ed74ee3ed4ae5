import FSharpWorkspace.Proofs.Resolution.Alike
/-!
# Derived results

`derivedFrom` says that something the search enters depends on the changed file
(`derivedFrom_iff`). The search enters only what is held (`enter_held`), so a dependent result is
always held, whatever the graph is.

It enters a file once, so of two results for one file it may miss the one that depends on the
changed file. Where the results for one file are alike (`Consistent`), it misses nothing: some
result like every held one is entered (`Consistent.enter_alike`), and results that are alike depend
on the same files (`dependsOn_bare`).
-/

set_option autoImplicit false

namespace FSharpWorkspace.Resolution

open Relation (ReflTransGen)

/-! ## What is entered is held -/

theorem enterAll_held {references : List (Option Location × Resolution)}
    (h : ∀ o p, (o, p) ∈ references → ∀ (entered : List Resolution), ∀ q ∈ enter p entered,
      q ∈ entered ∨ ReflTransGen Holds p q) (entered : List Resolution) :
    ∀ q ∈ enterAll references entered, q ∈ entered ∨ ∃ o p, (o, p) ∈ references ∧
      ReflTransGen Holds p q := by
  induction references with
  | nil =>
      intro q hq
      rw [enterAll] at hq
      exact Or.inl hq
  | cons entry rest ih =>
      obtain ⟨o, p⟩ := entry
      intro q hq
      rw [enterAll_cons] at hq
      rcases h o p List.mem_cons_self _ q hq with hq | hpq
      · rcases ih (fun o p hp => h o p (List.mem_cons_of_mem _ hp)) q hq
          with hq | ⟨o', p', hp', hpq⟩
        · exact Or.inl hq
        · exact Or.inr ⟨o', p', List.mem_cons_of_mem _ hp', hpq⟩
      · exact Or.inr ⟨o, p, List.mem_cons_self, hpq⟩

/-- A search through a result enters only what the result holds. -/
theorem enter_held (r : Resolution) : ∀ (entered : List Resolution), ∀ q ∈ enter r entered,
    q ∈ entered ∨ ReflTransGen Holds r q := by
  induction r using held_induction with
  | h r ih =>
      intro entered q hq
      by_cases hr : Entered entered r.id.location
      · rw [enter_of_entered hr] at hq
        exact Or.inl hq
      · rw [enter_of_not_entered hr] at hq
        rcases enterAll_held ih _ q hq with hq | ⟨o, p, hp, hpq⟩
        · rcases List.mem_cons.mp hq with rfl | hq
          · exact Or.inr .refl
          · exact Or.inl hq
        · exact Or.inr (.head ⟨o, hp⟩ hpq)

theorem held_of_mem_enter {r q : Resolution} (hq : q ∈ enter r []) : ReflTransGen Holds r q :=
  (enter_held r [] q hq).resolve_left List.not_mem_nil

theorem closed_of_mem_enter {r q : Resolution} (hq : q ∈ enter r []) : Closed (enter r []) q :=
  (enter_closed r [] q hq).resolve_left List.not_mem_nil

/-! ## What is held is entered -/

/-- When a result was made does not matter for what it depends on. -/
@[simp] theorem dependsOn_bare (r : Resolution) (changed : Location) :
    r.bare.dependsOn changed = r.dependsOn changed := by
  cases r
  rfl

/-- Where results for one file are alike, the search through the root enters one like
each that is held. -/
theorem Consistent.enter_alike {r q : Resolution} (h : Consistent [r])
    (hq : ReflTransGen Holds r q) :
    ∃ q' ∈ enter r [], q'.bare = q.bare := by
  -- whatever was entered for the file of a held result is like that result
  have alike : ∀ p, ReflTransGen Holds r p → Entered (enter r []) p.id.location →
      ∃ p' ∈ enter r [], p'.bare = p.bare := by
    rintro p hp ⟨p', hp', hl⟩
    exact ⟨p', hp', h p' p ⟨r, by simp, held_of_mem_enter hp'⟩ ⟨r, by simp, hp⟩ hl⟩
  induction hq with
  | refl => exact alike r .refl (entered_enter r [])
  | @tail q p hq hp ih =>
      obtain ⟨q', hq', hbare⟩ := ih
      -- the result entered in the place of `q` references the file of `p` as well
      obtain ⟨p₁, ⟨o₁, hp₁⟩, hbare₁⟩ : ∃ p₁, q'.Holds p₁ ∧ p₁.bare = p.bare :=
        holds_bare_iff.mp (hbare ▸ holds_bare_iff.mpr ⟨p, hp, rfl⟩)
      have hl : p₁.id.location = p.id.location := by rw [← bare_id p₁, hbare₁, bare_id]
      exact alike p (hq.tail hp) (hl ▸ closed_of_mem_enter hq' o₁ p₁ hp₁)

/-- **Derived results.** A result is derived from a file only if it holds a result that depends on
that file, at any depth, or depends on it itself. Where the results that it holds for one file are
alike, it is derived from the file whenever there is such a result. -/
theorem derivedFrom_reaches (r : Resolution) (changed : Location) :
    (Consistent [r] →
      (r.derivedFrom changed = true ↔ ∃ q, ReflTransGen Holds r q ∧ q.dependsOn changed = true)) ∧
    (r.derivedFrom changed = true → ∃ q, ReflTransGen Holds r q ∧ q.dependsOn changed = true) := by
  have sound : r.derivedFrom changed = true → ∃ q, ReflTransGen Holds r q ∧
      q.dependsOn changed = true := by
    intro h
    obtain ⟨q, hq, hd⟩ := (derivedFrom_iff r changed).mp h
    exact ⟨q, held_of_mem_enter hq, hd⟩
  refine ⟨fun hr => ⟨sound, ?_⟩, sound⟩
  rintro ⟨q, hq, hd⟩
  obtain ⟨q', hq', hbare⟩ := hr.enter_alike hq
  refine (derivedFrom_iff r changed).mpr ⟨q', hq', ?_⟩
  rw [← dependsOn_bare q', hbare, dependsOn_bare, hd]

/-! ## One more root -/

theorem heldBy_singleton_iff {r q : Resolution} :
    HeldBy [r] q ↔ q = r ∨ HeldBy (r.references.map Prod.snd) q := by
  constructor
  · rintro ⟨r', hr', hq⟩
    obtain rfl := List.mem_singleton.mp hr'
    rcases hq.cases_head with rfl | ⟨p, ⟨o, hp⟩, hpq⟩
    · exact Or.inl rfl
    · exact Or.inr ⟨p, List.mem_map.mpr ⟨(o, p), hp, rfl⟩, hpq⟩
  · rintro (rfl | ⟨p, hp, hpq⟩)
    · exact ⟨q, List.mem_singleton_self q, .refl⟩
    · obtain ⟨⟨o, p⟩, hmem, rfl⟩ := List.mem_map.mp hp
      exact ⟨r, List.mem_singleton_self r, .head ⟨o, hmem⟩ hpq⟩

/-- A result over consistent ones, for a file that none of them holds, is consistent with them. -/
theorem Consistent.above {r : Resolution} (h : Consistent (r.references.map Prod.snd))
    (hnew : ∀ q, HeldBy (r.references.map Prod.snd) q → q.id.location ≠ r.id.location) :
    Consistent [r] := by
  intro p q hp hq hl
  rcases heldBy_singleton_iff.mp hp with rfl | hp <;>
    rcases heldBy_singleton_iff.mp hq with rfl | hq
  · rfl
  · exact absurd hl.symm (hnew q hq)
  · exact absurd hl (hnew p hp)
  · exact h p q hp hq hl

/-- The result of a project over two others, which hold different results of a third one. -/
def topOfBoth : Resolution := madeAs 4 "top.fsproj" baseMadeTwice

theorem topOfBoth_consistent : Consistent [topOfBoth] := by
  refine Consistent.above baseMadeTwice_consistent fun q hq => ?_
  have hmem : q ∈ baseMadeTwice ++ [madeAs 0 "base.fsproj" [], madeAs 2 "base.fsproj" []] :=
    hq.mem_of_closed (fun r hr => List.mem_append_left _ hr)
      (by simp [baseMadeTwice, madeAs, empty])
  simp only [baseMadeTwice, List.cons_append, List.nil_append, List.mem_cons, List.not_mem_nil,
    or_false] at hmem
  rcases hmem with rfl | rfl | rfl | rfl <;> decide

theorem derivedFrom_reaches_topOfBoth :
    Consistent [topOfBoth] ∧
      (∃ q, ReflTransGen Holds topOfBoth q ∧ q.dependsOn ⟨["base.fsproj"]⟩ = true) ∧
      ¬ ∃ q, ReflTransGen Holds topOfBoth q ∧ q.dependsOn ⟨["top.fsproj"]⟩ = true := by
  refine ⟨topOfBoth_consistent, (derivedFrom_reaches topOfBoth ⟨["base.fsproj"]⟩).2 (by decide), ?_⟩
  rw [← (derivedFrom_reaches topOfBoth ⟨["top.fsproj"]⟩).1 topOfBoth_consistent]
  decide

/-- Of two results for one file the search looks at the later one only, and the other may be
the dependent one. -/
example :
    let early := madeAs 1 "left.fsproj" [madeAs 0 "base.fsproj" []]
    let late := madeAs 2 "left.fsproj" []
    (madeAs 3 "top.fsproj" [early, late]).derivedFrom ⟨["base.fsproj"]⟩ = false ∧
      early.dependsOn ⟨["base.fsproj"]⟩ = true := by decide

end FSharpWorkspace.Resolution
