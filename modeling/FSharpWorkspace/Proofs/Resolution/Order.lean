import FSharpWorkspace.Proofs.Resolution.Search
import Mathlib.Data.List.Nodup
import Mathlib.Logic.Relation
/-!
# The order of dependencies

`dependencyOrder` walks through held results depth first. It enters a file once, so a walk over
results that disagree about a file would list only one of them. Where they agree (`Unanimous`), the
order is what its name says: it lists what is held by a root, at any depth, each file once, and
every result after all that it references (`dependencyOrder_lists`).

The walk is steady (`Walk.Steady`) within the files whose visit has begun and not ended: these and
the files of the results left are all that was entered. A result is never held by what it holds
(`not_transGen_holds_self`), so a file that was entered when its result is visited was left, and is
in the order already.
-/

set_option autoImplicit false

namespace FSharpWorkspace.Resolution

open Relation (ReflTransGen TransGen)

/-! ## Holding -/

def Holds (r p : Resolution) : Prop := ∃ o, (o, p) ∈ r.references

/-- Results are finite trees. -/
theorem not_transGen_holds_self (r : Resolution) : ¬ TransGen Holds r r := by
  induction r using held_induction with
  | h r ih =>
      intro h
      obtain ⟨p, ⟨o, hp⟩, hback⟩ := TransGen.head'_iff.mp h
      exact ih o p hp (TransGen.tail' hback ⟨o, hp⟩)

/-- What a trail leads to is held by one of its roots. -/
theorem Trail.holds {E : List Location} {roots : List (Option Location × Resolution)}
    {path : List Location} {q : Resolution} (h : Trail E roots path q) :
    ∃ o r, (o, r) ∈ roots ∧ ReflTransGen Holds r q := by
  induction h with
  | root hr _ => exact ⟨_, _, hr, .refl⟩
  | under hr _ _ ih =>
      obtain ⟨o, p, hp, hpq⟩ := ih
      exact ⟨_, _, hr, .head ⟨o, hp⟩ hpq⟩

/-- Results that agree about each file, with all that they hold. -/
structure Unanimous (U : Resolution → Prop) : Prop where
  held : ∀ {r p}, U r → r.Holds p → U p
  unique : ∀ {r q}, U r → U q → r.id.location = q.id.location → r = q

theorem Unanimous.under {U : Resolution → Prop} (hU : Unanimous U) {r q : Resolution} (hr : U r)
    (h : ReflTransGen Holds r q) : U q := by
  induction h with
  | refl => exact hr
  | tail _ hp ih => exact hU.held ih hp

/-! ## Orders -/

/-- Every result comes after all that it references. -/
def Ordered (order : List Resolution) : Prop :=
  ∀ before r after, order = before ++ r :: after → ∀ p, r.Holds p → p ∈ before

theorem ordered_nil : Ordered [] := by
  intro before r after h
  exact absurd h (by simp)

theorem Ordered.concat {order : List Resolution} {r : Resolution} (h : Ordered order)
    (hr : ∀ p, r.Holds p → p ∈ order) : Ordered (order ++ [r]) := by
  intro before q after hsplit p hp
  rcases List.eq_nil_or_concat after with rfl | ⟨after, last, rfl⟩
  · obtain ⟨rfl, rfl⟩ := List.append_inj' hsplit rfl |>.imp_right (List.cons.inj · |>.1)
    exact hr p hp
  · have hsplit' : order = before ++ q :: after := by
      rw [List.concat_eq_append, ← List.cons_append, ← List.append_assoc] at hsplit
      exact (List.append_inj' hsplit rfl).1
    exact h before q after hsplit' p hp

theorem Ordered.mem_of_holds {order : List Resolution} (h : Ordered order) {r p : Resolution}
    (hr : r ∈ order) (hp : r.Holds p) : p ∈ order := by
  obtain ⟨before, after, rfl⟩ := List.append_of_mem hr
  exact List.mem_append_left _ (h before r after rfl p hp)

theorem Ordered.mem_of_reflTransGen {order : List Resolution} (h : Ordered order) {r q : Resolution}
    (hr : r ∈ order) (hq : ReflTransGen Holds r q) : q ∈ order := by
  induction hq with
  | refl => exact hr
  | tail _ hp ih => exact h.mem_of_holds ih hp

/-- The list `order` is an order of what `roots` hold. -/
structure Lists (roots order : List Resolution) : Prop where
  nodup : (order.map (·.id.location)).Nodup
  mem_iff : ∀ q, q ∈ order ↔ ∃ r ∈ roots, ReflTransGen Holds r q
  ordered : Ordered order

/-! ## Walks -/

section

variable {U : Resolution → Prop} {within : List Location} {walk walk₁ walk' : Walk}
  {r q : Resolution}

/-- A walk through results of `U`, in the middle of the visits of the files `within`. -/
structure Walk.Steady (U : Resolution → Prop) (within : List Location) (walk : Walk) : Prop where
  entered : ∀ l, l ∈ walk.entered ↔ l ∈ within ∨ ∃ q ∈ walk.left, q.id.location = l
  nodup : (walk.left.map (·.id.location)).Nodup
  apart : ∀ q ∈ walk.left, q.id.location ∉ within
  among : ∀ q ∈ walk.left, U q
  ordered : Ordered walk.left.reverse

theorem Walk.Steady.start (U : Resolution → Prop) : Walk.Steady U [] ⟨[], []⟩ where
  entered := by simp
  nodup := by simp
  apart := by simp
  among := by simp
  ordered := ordered_nil

theorem Walk.Steady.mem_of_entered (h : walk.Steady U within) (hU : Unanimous U) (hr : U r)
    (hwithin : r.id.location ∉ within) (he : r.id.location ∈ walk.entered) : r ∈ walk.left := by
  obtain ⟨q, hq, hl⟩ := ((h.entered _).mp he).resolve_left hwithin
  exact hU.unique (h.among q hq) hr hl ▸ hq

theorem Walk.Steady.enter (h : walk.Steady U within) {l : Location} (hl : l ∉ walk.entered) :
    Walk.Steady U (l :: within) { walk with entered := l :: walk.entered } where
  entered x := by rw [List.mem_cons, h.entered, List.mem_cons, or_assoc]
  nodup := h.nodup
  apart q hq := by
    have hne : q.id.location ≠ l := fun he => hl ((h.entered l).mpr (Or.inr ⟨q, hq, he⟩))
    simpa [hne] using h.apart q hq
  among := h.among
  ordered := h.ordered

theorem Walk.Steady.leave (h : walk.Steady U (r.id.location :: within)) (hr : U r)
    (hwithin : r.id.location ∉ within) (hheld : ∀ p, r.Holds p → p ∈ walk.left) :
    Walk.Steady U within { walk with left := r :: walk.left } where
  entered x := by
    rw [h.entered]
    simp only [List.mem_cons, exists_eq_or_imp, or_assoc]
    tauto
  nodup := by
    have hself : r.id.location ∉ walk.left.map (·.id.location) := by
      intro hmem
      obtain ⟨q, hq, hl⟩ := List.mem_map.mp hmem
      exact h.apart q hq (hl ▸ List.mem_cons_self)
    exact List.nodup_cons.mpr ⟨hself, h.nodup⟩
  apart q hq := by
    rcases List.mem_cons.mp hq with rfl | hq
    · exact hwithin
    · exact fun hl => h.apart q hq (List.mem_cons_of_mem _ hl)
  among q hq := by
    rcases List.mem_cons.mp hq with rfl | hq
    · exact hr
    · exact h.among q hq
  ordered := by
    rw [List.reverse_cons]
    exact h.ordered.concat fun p hp => List.mem_reverse.mpr (hheld p hp)

/-- What visiting `roots` makes of a walk. -/
structure Walk.Visits (U : Resolution → Prop) (within : List Location) (roots : List Resolution)
    (walk walk' : Walk) : Prop where
  steady : walk'.Steady U within
  kept : ∀ q ∈ walk.left, q ∈ walk'.left
  reached : ∀ r ∈ roots, r ∈ walk'.left
  under : ∀ q ∈ walk'.left, q ∈ walk.left ∨ ∃ r ∈ roots, ReflTransGen Holds r q

theorem Walk.Visits.refl (h : walk.Steady U within) : Walk.Visits U within [] walk walk where
  steady := h
  kept _ hq := hq
  reached := by simp
  under _ hq := Or.inl hq

theorem Walk.Visits.cons {roots : List Resolution} (h : Walk.Visits U within [r] walk walk₁)
    (h' : Walk.Visits U within roots walk₁ walk') :
    Walk.Visits U within (r :: roots) walk walk' where
  steady := h'.steady
  kept q hq := h'.kept q (h.kept q hq)
  reached q hq := by
    rcases List.mem_cons.mp hq with rfl | hq
    · exact h'.kept q (h.reached q (by simp))
    · exact h'.reached q hq
  under q hq := by
    rcases h'.under q hq with hq | ⟨p, hp, hpq⟩
    · rcases h.under q hq with hq | ⟨p, hp, hpq⟩
      · exact Or.inl hq
      · exact Or.inr ⟨p, List.mem_singleton.mp hp ▸ List.mem_cons_self, hpq⟩
    · exact Or.inr ⟨p, List.mem_cons_of_mem _ hp, hpq⟩

/-- A list is visited result by result. -/
theorem foldl_visits {roots : List Resolution}
    (h : ∀ r ∈ roots, ∀ walk : Walk, walk.Steady U within →
      Walk.Visits U within [r] walk (r.visit walk)) (hw : walk.Steady U within) :
    Walk.Visits U within roots walk (roots.foldl (fun walk r => r.visit walk) walk) := by
  induction roots generalizing walk with
  | nil => exact .refl hw
  | cons r roots ih =>
      have hr := h r List.mem_cons_self walk hw
      exact hr.cons (ih (fun q hq => h q (List.mem_cons_of_mem _ hq)) hr.steady)

theorem visitAll_eq_foldl (references : List (Option Location × Resolution)) (walk : Walk) :
    visitAll references walk = (references.map Prod.snd).foldl
      (fun walk r => r.visit walk) walk := by
  induction references generalizing walk with
  | nil => rw [visitAll, List.map_nil, List.foldl_nil]
  | cons entry rest ih =>
      obtain ⟨o, r⟩ := entry
      rw [visitAll, ih, List.map_cons, List.foldl_cons]

/-- The visit of a result. The induction is on the result: a reference is visited within one more
file, and neither it nor anything that it holds is of that file. -/
theorem visit_visits (hU : Unanimous U) (r : Resolution) :
    U r → ∀ (within : List Location) (walk : Walk),
      (∀ q, ReflTransGen Holds r q → q.id.location ∉ within) → walk.Steady U within →
      Walk.Visits U within [r] walk (r.visit walk) := by
  induction r using held_induction with
  | h r ih =>
      intro hr within walk hwithin hw
      have hself := hwithin r .refl
      rw [visit_eq]
      by_cases he : r.id.location ∈ walk.entered
      · rw [if_pos (List.contains_iff_mem.mpr he)]
        have hmem := hw.mem_of_entered hU hr hself he
        exact ⟨hw, fun _ hq => hq,
          fun q hq => List.mem_singleton.mp hq ▸ hmem, fun _ hq => Or.inl hq⟩
      · rw [if_neg (fun hc => he (List.contains_iff_mem.mp hc)), visitAll_eq_foldl]
        have hrefs : ∀ p ∈ r.references.map Prod.snd, ∀ walk : Walk,
            walk.Steady U (r.id.location :: within) →
            Walk.Visits U (r.id.location :: within) [p] walk (p.visit walk) := by
          intro p hp walk hw
          obtain ⟨⟨o, p⟩, hmem, rfl⟩ := List.mem_map.mp hp
          refine ih o p hmem (hU.held hr ⟨o, hmem⟩) _ walk (fun q hq hl => ?_) hw
          rcases List.mem_cons.mp hl with hl | hl
          · -- otherwise `r` would be held by its own reference
            have hpr : ReflTransGen Holds p r :=
              hU.unique (hU.under (hU.held hr ⟨o, hmem⟩) hq) hr hl ▸ hq
            exact not_transGen_holds_self r (TransGen.head' ⟨o, hmem⟩ hpr)
          · exact hwithin q (.head ⟨o, hmem⟩ hq) hl
        have hv := foldl_visits hrefs (hw.enter he)
        have hheld : ∀ p, r.Holds p → p ∈ r.references.map Prod.snd :=
          fun p ⟨o, hp⟩ => List.mem_map.mpr ⟨(o, p), hp, rfl⟩
        refine ⟨hv.steady.leave hr hself fun p hp => hv.reached p (hheld p hp),
          fun q hq => List.mem_cons_of_mem _ (hv.kept q hq),
          fun q hq => List.mem_singleton.mp hq ▸ List.mem_cons_self, fun q hq => ?_⟩
        rcases List.mem_cons.mp hq with rfl | hq
        · exact Or.inr ⟨q, by simp, .refl⟩
        · rcases hv.under q hq with hq | ⟨p, hp, hpq⟩
          · exact Or.inl hq
          · obtain ⟨⟨o, p⟩, hmem, rfl⟩ := List.mem_map.mp hp
            exact Or.inr ⟨r, by simp, .head ⟨o, hmem⟩ hpq⟩

/-- Where results agree about each file, the dependency order is an order of what the roots hold. -/
theorem dependencyOrder_lists (hU : Unanimous U) {roots : List Resolution}
    (hroots : ∀ r ∈ roots, U r) :
    Lists roots (dependencyOrder roots) := by
  have hv : Walk.Visits U [] roots ⟨[], []⟩ (roots.foldl (fun walk r => r.visit walk) ⟨[], []⟩) :=
    foldl_visits
      (fun r hr walk hw => visit_visits hU r (hroots r hr) [] walk (by simp) hw) (.start U)
  refine ⟨?_, fun q => ?_, hv.steady.ordered⟩
  · unfold dependencyOrder
    rw [List.map_reverse]
    exact List.nodup_reverse.mpr hv.steady.nodup
  · constructor
    · intro hq
      rcases hv.under q (List.mem_reverse.mp hq) with hq | hq
      · cases hq
      · exact hq
    · rintro ⟨r, hr, hq⟩
      exact hv.steady.ordered.mem_of_reflTransGen (List.mem_reverse.mpr (hv.reached r hr)) hq

end

end FSharpWorkspace.Resolution
