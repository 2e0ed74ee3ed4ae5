import FSharpWorkspace.LoadDirective
import Mathlib.Data.List.Basic
import Mathlib.Logic.Relation
/-!
# What a walk along load directives finds

`Follows` is the walk without a bound on its depth. A bound that exceeds the number of readable
files not entered yet is no bound (`follows_follow`), because every step down enters one of them.

A walk enters exactly what its directives lead to (`Follows.reached`, `Follows.closed`), and loads
what it can read of it (`Follows.mem_loaded`). Only the files that it enters matter to it
(`Follows.congr`).
-/

set_option autoImplicit false

namespace FSharpWorkspace.LoadWalk

open Relation (ReflTransGen)

/-! ## The walk as a relation -/

def enter (l : Location) (walk : LoadWalk) : LoadWalk := { walk with entered := l :: walk.entered }

def fail (f : LoadFailure) (walk : LoadWalk) : LoadWalk :=
  { walk with failures := walk.failures ++ [f] }

def load (l : Location) (walk : LoadWalk) : LoadWalk := { walk with loaded := walk.loaded ++ [l] }

/-- The files that a file loads, if it can be read. -/
def loads (place : Location → Path → Location) (read : Location → Except ReadFault String)
    (l : Location) :
    List Location :=
  match read l with
  | .ok text => (loadDirectives text).map fun name => place l.dir ⟨name⟩
  | .error _ => []

/-- Following the directives `names` of a loader that lies in `dir` leads from
one walk to another. -/
inductive Follows (place : Location → Path → Location) (read : Location → Except ReadFault String) :
    Path → Location → List String → LoadWalk → LoadWalk → Prop where
  | nil {loader : Path} {dir : Location} {walk : LoadWalk} :
      Follows place read loader dir [] walk walk
  | seen {loader : Path} {dir : Location} {name : String} {names : List String}
      {walk walk' : LoadWalk} :
      place dir ⟨name⟩ ∈ walk.entered → Follows place read loader dir names walk walk' →
      Follows place read loader dir (name :: names) walk walk'
  | failed {loader : Path} {dir there : Location} {name : String}
      {names : List String} {walk walk' : LoadWalk}
      {fault : ReadFault} :
      place dir ⟨name⟩ = there → there ∉ walk.entered → read there = .error fault →
      Follows place read loader dir names ((walk.enter there).fail ⟨loader, name, fault⟩) walk' →
      Follows place read loader dir (name :: names) walk walk'
  | loaded {loader : Path} {dir there : Location} {name text : String} {names : List String}
      {walk walk₁ walk' : LoadWalk} :
      place dir ⟨name⟩ = there → there ∉ walk.entered → read there = .ok text →
      Follows place read there.path there.dir (loadDirectives text) (walk.enter there) walk₁ →
      Follows place read loader dir names (walk₁.load there) walk' →
      Follows place read loader dir (name :: names) walk walk'

variable {place : Location → Path → Location} {read : Location → Except ReadFault String}
  {loader : Path} {dir : Location} {names : List String} {walk walk' : LoadWalk}

theorem Follows.subset (h : Follows place read loader dir names walk walk') :
    walk.entered ⊆ walk'.entered := by
  induction h with
  | nil => exact fun _ hl => hl
  | seen _ _ ih => exact ih
  | failed _ _ _ _ ih => exact fun l hl => ih (List.mem_cons_of_mem _ hl)
  | loaded _ _ _ _ _ ih₁ ih => exact fun l hl => ih (ih₁ (List.mem_cons_of_mem _ hl))

def left (known : List Location) (walk : LoadWalk) : Nat := (known.filter (· ∉ walk.entered)).length

theorem left_anti (known : List Location) (h : walk.entered ⊆ walk'.entered) :
    walk'.left known ≤ walk.left known := by
  refine (List.monotone_filter_right known fun l hl => ?_).length_le
  simp only [decide_eq_true_eq] at hl ⊢
  exact fun hm => hl (h hm)

theorem left_enter_lt {known : List Location} {l : Location} (hl : l ∈ known)
    (hn : l ∉ walk.entered) :
    (walk.enter l).left known < walk.left known := by
  have hsplit : known.filter (· ∉ (walk.enter l).entered) =
      (known.filter (· ∉ walk.entered)).filter (· ≠ l) := by
    rw [List.filter_filter]
    refine List.filter_congr fun x _ => ?_
    simp [enter]
  unfold left
  rw [hsplit, List.length_filter_lt_length_iff_exists]
  exact ⟨l, List.mem_filter.mpr ⟨hl, by simpa using hn⟩, by simp⟩

/-- A walk that may go deeper than there are readable files to enter is not bounded by its depth. -/
theorem follows_follow {known : List Location}
    (hknown : ∀ dir p text, read (place dir p) = .ok text → place dir p ∈ known) {depth : Nat}
    (loader : Path) (dir : Location) (names : List String) (walk : LoadWalk)
    (h : walk.left known < depth) :
    Follows place read loader dir names walk (follow place read depth loader dir names walk) := by
  induction depth generalizing loader dir names walk with
  | zero => exact absurd h (Nat.not_lt_zero _)
  | succ depth ih =>
      unfold follow
      induction names generalizing walk with
      | nil => exact .nil
      | cons name names ihn =>
          rw [List.foldl_cons]
          by_cases hs : place dir ⟨name⟩ ∈ walk.entered
          · have hc : walk.entered.contains (place dir ⟨name⟩) = true := by simpa using hs
            simp only [hc, if_true]
            exact .seen hs (ihn walk h)
          · have hc : walk.entered.contains (place dir ⟨name⟩) = false := by simpa using hs
            simp only [hc, Bool.false_eq_true, if_false]
            cases hr : read (place dir ⟨name⟩) with
            | error fault =>
                refine .failed rfl hs hr (ihn _ (Nat.lt_of_le_of_lt (left_anti known ?_) h))
                exact List.subset_cons_self _ _
            | ok text =>
                -- the way down enters one of the files that are left, and what it enters is not
                -- left afterwards
                have hless : (walk.enter (place dir ⟨name⟩)).left known < walk.left known :=
                  left_enter_lt (hknown _ _ _ hr) hs
                have hinner :=
                  ih (place dir ⟨name⟩).path (place dir ⟨name⟩).dir (loadDirectives text)
                  (walk.enter (place dir ⟨name⟩)) (by omega)
                refine .loaded rfl hs hr hinner (ihn _ (Nat.lt_of_le_of_lt (left_anti known ?_) h))
                exact fun l hl => hinner.subset (List.mem_cons_of_mem _ hl)

/-! ## What a walk enters and loads -/

/-- A walk has one outcome. -/
theorem Follows.unique {walk₁ walk₂ : LoadWalk}
    (h₁ : Follows place read loader dir names walk walk₁)
    (h₂ : Follows place read loader dir names walk walk₂) : walk₁ = walk₂ := by
  induction h₁ generalizing walk₂ with
  | nil =>
      cases h₂
      rfl
  | seen hs _ ih =>
      cases h₂ with
      | seen _ h => exact ih h
      | failed hp hn => exact absurd (hp ▸ hs) hn
      | loaded hp hn => exact absurd (hp ▸ hs) hn
  | failed hp hn hr _ ih =>
      subst hp
      cases h₂ with
      | seen hs => exact absurd hs hn
      | failed hp _ hr' h =>
          subst hp
          cases hr.symm.trans hr'
          exact ih h
      | loaded hp _ hr' =>
          subst hp
          cases hr.symm.trans hr'
  | loaded hp hn hr _ _ ih₁ ih =>
      subst hp
      cases h₂ with
      | seen hs => exact absurd hs hn
      | failed hp _ hr' =>
          subst hp
          cases hr.symm.trans hr'
      | loaded hp _ hr' h₁ h =>
          subst hp
          cases hr.symm.trans hr'
          rw [ih₁ h₁] at ih
          exact ih h

/-- A walk reads no other files than those that it enters. -/
theorem Follows.congr {read' : Location → Except ReadFault String}
    (h : Follows place read loader dir names walk walk')
    (hread : ∀ l ∈ walk'.entered, l ∉ walk.entered → read' l = read l) :
    Follows place read' loader dir names walk walk' := by
  induction h with
  | nil => exact .nil
  | seen hs _ ih => exact .seen hs (ih hread)
  | @failed loader dir there name names walk walk' fault hp hn hr hrest ih =>
      have hmem : there ∈ walk'.entered := hrest.subset (by simp [fail, enter])
      refine .failed hp hn ((hread there hmem hn).trans hr) (ih fun l hl hl' =>
        hread l hl fun hm => hl' ?_)
      exact List.mem_cons_of_mem _ hm
  | @loaded loader dir there name text names walk walk₁ walk' hp hn hr hinner hrest ih₁ ih =>
      have hmem : there ∈ walk₁.entered := hinner.subset (by simp [enter])
      refine .loaded hp hn ((hread there (hrest.subset hmem) hn).trans hr) (ih₁ fun l hl hl' => ?_)
        (ih fun l hl hl' => ?_)
      · exact hread l (hrest.subset hl) fun hm => hl' (List.mem_cons_of_mem _ hm)
      · exact hread l hl fun hm => hl' (hinner.subset (List.mem_cons_of_mem _ hm))

/-- Every directive is entered, and so is all that a file entered on the way loads. -/
theorem Follows.closed (h : Follows place read loader dir names walk walk') :
    (∀ name ∈ names, place dir ⟨name⟩ ∈ walk'.entered) ∧
      ∀ x ∈ walk'.entered, x ∉ walk.entered → ∀ y ∈ loads place read x, y ∈ walk'.entered := by
  induction h with
  | nil => exact ⟨by simp, fun x hx hn => absurd hx hn⟩
  | seen hs hrest ih =>
      refine ⟨fun n hn => ?_, ih.2⟩
      rcases List.mem_cons.mp hn with rfl | hn
      · exact hrest.subset hs
      · exact ih.1 n hn
  | @failed loader dir there name names walk walk' fault hp hn hr hrest ih =>
      refine ⟨fun n hn => ?_, fun x hx hx' y hy => ?_⟩
      · rcases List.mem_cons.mp hn with rfl | hn
        · exact hrest.subset (by simp [fail, enter, hp])
        · exact ih.1 n hn
      · by_cases hxt : x = there
        · -- a file that cannot be read loads nothing
          rw [hxt] at hy
          simp [loads, hr] at hy
        · exact ih.2 x hx (fun hm => (List.mem_cons.mp hm).elim hxt hx') y hy
  | @loaded loader dir there name text names walk walk₁ walk' hp hn hr hinner hrest ih₁ ih =>
      have hmem : there ∈ walk₁.entered := hinner.subset (by simp [enter])
      refine ⟨fun n hn => ?_, fun x hx hx' y hy => ?_⟩
      · rcases List.mem_cons.mp hn with rfl | hn
        · rw [hp]
          exact hrest.subset hmem
        · exact ih.1 n hn
      · by_cases hx₁ : x ∈ walk₁.entered
        · refine hrest.subset ?_
          by_cases hxt : x = there
          · subst hxt
            simp only [loads, hr, List.mem_map] at hy
            obtain ⟨n, hn, rfl⟩ := hy
            exact ih₁.1 n hn
          · exact ih₁.2 x hx₁ (fun hm => (List.mem_cons.mp hm).elim hxt hx') y hy
        · exact ih.2 x hx hx₁ y hy

/-- A file is entered only if some directive leads to it. -/
theorem Follows.reached (h : Follows place read loader dir names walk walk') {x : Location}
    (hx : x ∈ walk'.entered) :
    x ∈ walk.entered ∨ ∃ name ∈ names,
      ReflTransGen (fun a b => b ∈ loads place read a) (place dir ⟨name⟩) x := by
  induction h with
  | nil => exact Or.inl hx
  | seen _ _ ih => exact (ih hx).imp_right fun ⟨n, hn, hr⟩ => ⟨n, List.mem_cons_of_mem _ hn, hr⟩
  | failed hp _ _ _ ih =>
      rcases ih hx with hx | ⟨n, hn, hr⟩
      · rcases List.mem_cons.mp hx with rfl | hx
        · exact Or.inr ⟨_, List.mem_cons_self, hp ▸ .refl⟩
        · exact Or.inl hx
      · exact Or.inr ⟨n, List.mem_cons_of_mem _ hn, hr⟩
  | @loaded loader dir there name text names walk walk₁ walk' hp _ hread _ _ ih₁ ih =>
      rcases ih hx with hx | ⟨n, hn, hr⟩
      · rcases ih₁ hx with hx | ⟨n, hn, hr⟩
        · rcases List.mem_cons.mp hx with rfl | hx
          · exact Or.inr ⟨_, List.mem_cons_self, hp ▸ .refl⟩
          · exact Or.inl hx
        · -- the file that was loaded loads what was entered under it
          have hstep : place there.dir ⟨n⟩ ∈ loads place read there := by
            simp only [loads, hread]
            exact List.mem_map.mpr ⟨n, hn, rfl⟩
          exact Or.inr ⟨name, List.mem_cons_self, hp ▸ hr.head hstep⟩
      · exact Or.inr ⟨n, List.mem_cons_of_mem _ hn, hr⟩

/-- A walk along all that the file at `l` loads enters what that file leads to. -/
theorem Follows.mem_entered_iff {l x : Location}
    (h : Follows place read loader dir names ⟨[l], [], []⟩ walk')
    (hloads : loads place read l = names.map fun name => place dir ⟨name⟩) :
    x ∈ walk'.entered ↔ ReflTransGen (fun a b => b ∈ loads place read a) l x := by
  constructor
  · intro hx
    rcases h.reached hx with hx | ⟨name, hn, hr⟩
    · rw [List.mem_singleton.mp hx]
    · refine ReflTransGen.head ?_ hr
      rw [hloads]
      exact List.mem_map.mpr ⟨name, hn, rfl⟩
  · intro hx
    induction hx with
    | refl => exact h.subset (by simp)
    | @tail y z _ hz ih =>
        by_cases hy : y = l
        · rw [hy, hloads] at hz
          obtain ⟨name, hn, rfl⟩ := List.mem_map.mp hz
          exact h.closed.1 name hn
        · exact h.closed.2 y ih (by simpa using hy) z hz

/-- Of the files that it enters, a walk loads those that it can read. -/
theorem Follows.mem_loaded (h : Follows place read loader dir names walk walk') {x : Location} :
    x ∈ walk'.loaded ↔
      x ∈ walk.loaded ∨ (x ∈ walk'.entered ∧ x ∉ walk.entered ∧ ∃ text, read x = .ok text) := by
  induction h with
  | nil => exact ⟨Or.inl, fun h => h.elim id fun ⟨hm, hn, _⟩ => absurd hm hn⟩
  | seen _ _ ih => exact ih
  | @failed loader dir there name names walk walk' fault hp hn hr hrest ih =>
      rw [ih]
      refine or_congr_right (and_congr_right fun _ =>
        ⟨fun ⟨hm, ht⟩ => ⟨fun hw => hm ?_, ht⟩, fun ⟨hm, t, ht⟩ => ?_⟩)
      · exact List.mem_cons_of_mem _ hw
      · refine ⟨fun hw => ?_, t, ht⟩
        rcases List.mem_cons.mp hw with rfl | hw
        · cases hr.symm.trans ht
        · exact hm hw
  | @loaded loader dir there name text names walk walk₁ walk' hp hn hr hinner hrest ih₁ ih =>
      have hthere : there ∈ walk₁.entered := hinner.subset (by simp [enter])
      rw [ih]
      show x ∈ walk₁.loaded ++ [there] ∨ (x ∈ walk'.entered ∧ x ∉ walk₁.entered ∧ _) ↔ _
      rw [List.mem_append, List.mem_singleton, ih₁]
      constructor
      · rintro (((hw | ⟨hm, hnot, ht⟩) | rfl) | ⟨hm, hnot, ht⟩)
        · exact Or.inl hw
        · exact Or.inr ⟨hrest.subset hm, fun hw => hnot (List.mem_cons_of_mem _ hw), ht⟩
        · exact Or.inr ⟨hrest.subset hthere, hn, _, hr⟩
        · exact Or.inr ⟨hm, fun hw => hnot (hinner.subset (List.mem_cons_of_mem _ hw)), ht⟩
      · rintro (hw | ⟨hm, hnot, ht⟩)
        · exact Or.inl (Or.inl (Or.inl hw))
        · -- entered since: this file, a file under it, or one under the names that are left
          by_cases hx : x = there
          · exact Or.inl (Or.inr hx)
          · by_cases hm₁ : x ∈ walk₁.entered
            · exact Or.inl (Or.inl (Or.inr ⟨hm₁, fun hw => (List.mem_cons.mp hw).elim hx hnot, ht⟩))
            · exact Or.inr ⟨hm, hm₁, ht⟩

end FSharpWorkspace.LoadWalk
