import FSharpWorkspace.Proofs.Resolution.Order
import FSharpWorkspace.Proofs.Sequential.Coherent
/-!
# The order of dependencies of results that are alike

Two results for one file may be made at different times and otherwise be the same (`bare`). A walk
does not look at what tells them apart (`dependencyOrder_bare`). So it is enough that the results
that some roots hold for one file are alike (`Consistent`): the order lists every file that is held
once, and after all that its result references (`dependencyOrder_of_consistent`).

What was left by a walk stays where it is (`foldl_visit_left`), so further roots only add to
the end of an order.
-/

set_option autoImplicit false

namespace FSharpWorkspace.Resolution

open Relation (ReflTransGen)

/-! ## Bare results -/

@[simp] theorem bare_id (r : Resolution) : r.bare.id = r.id := by
  cases r
  rfl

theorem bareAll_eq_map (references : List (Option Location × Resolution)) :
    bareAll references = references.map fun x => (x.1, x.2.bare) := by
  induction references with
  | nil => rfl
  | cons x references ih =>
      obtain ⟨artifact, r⟩ := x
      rw [bareAll, ih, List.map_cons]

@[simp] theorem bare_references (r : Resolution) : r.bare.references = bareAll r.references := by
  cases r
  rfl

theorem bare_references_snd (r : Resolution) :
    r.bare.references.map Prod.snd = (r.references.map Prod.snd).map bare := by
  rw [bare_references, bareAll_eq_map, List.map_map, List.map_map]
  rfl

/-- A bare result holds the bare results of what it holds. -/
theorem holds_bare_iff {r p : Resolution} : r.bare.Holds p ↔ ∃ p', r.Holds p' ∧ p'.bare = p := by
  unfold Holds
  rw [bare_references, bareAll_eq_map]
  constructor
  · rintro ⟨o, hp⟩
    obtain ⟨⟨o', p'⟩, hmem, heq⟩ := List.mem_map.mp hp
    exact ⟨p', ⟨o', hmem⟩, (Prod.mk.inj heq).2⟩
  · rintro ⟨p', ⟨o, hmem⟩, rfl⟩
    exact ⟨o, List.mem_map.mpr ⟨(o, p'), hmem, rfl⟩⟩

/-- One of `roots` holds `q`, at any depth, or is `q`. -/
def HeldBy (roots : List Resolution) (q : Resolution) : Prop := ∃ r ∈ roots, ReflTransGen Holds r q

section

variable {roots order : List Resolution} {q p : Resolution}

theorem HeldBy.holds (h : HeldBy roots q) (hp : q.Holds p) : HeldBy roots p := by
  obtain ⟨r, hr, hq⟩ := h
  exact ⟨r, hr, hq.tail hp⟩

theorem heldBy_bare_iff : HeldBy (roots.map bare) q ↔ ∃ q', HeldBy roots q' ∧ q'.bare = q := by
  constructor
  · rintro ⟨b, hb, hq⟩
    induction hq with
    | refl =>
        obtain ⟨r, hr, rfl⟩ := List.mem_map.mp hb
        exact ⟨r, ⟨r, hr, .refl⟩, rfl⟩
    | tail _ hp ih =>
        obtain ⟨q', hq', rfl⟩ := ih
        obtain ⟨p', hp', rfl⟩ := holds_bare_iff.mp hp
        exact ⟨p', hq'.holds hp', rfl⟩
  · rintro ⟨q', ⟨r, hr, hq⟩, rfl⟩
    refine ⟨r.bare, List.mem_map_of_mem hr, ?_⟩
    induction hq with
    | refl => exact .refl
    | tail _ hp ih => exact ih.tail (holds_bare_iff.mpr ⟨_, hp, rfl⟩)

end

/-! ## Walks through bare results -/

def Walk.bare (walk : Walk) : Walk := { walk with left := walk.left.map Resolution.bare }

theorem foldl_visit_bare {roots : List Resolution}
    (h : ∀ r ∈ roots, ∀ walk : Walk, r.bare.visit walk.bare = (r.visit walk).bare) (walk : Walk) :
    (roots.map bare).foldl (fun walk r => r.visit walk) walk.bare =
      (roots.foldl (fun walk r => r.visit walk) walk).bare := by
  induction roots generalizing walk with
  | nil => rfl
  | cons r roots ih =>
      rw [List.map_cons, List.foldl_cons, List.foldl_cons, h r List.mem_cons_self]
      exact ih (fun q hq => h q (List.mem_cons_of_mem _ hq)) _

theorem visit_bare (r : Resolution) :
    ∀ walk : Walk, r.bare.visit walk.bare = (r.visit walk).bare := by
  induction r using held_induction with
  | h r ih =>
      intro walk
      have hrefs : ∀ p ∈ r.references.map Prod.snd, ∀ walk : Walk,
          p.bare.visit walk.bare = (p.visit walk).bare := by
        intro p hp
        obtain ⟨⟨o, p⟩, hmem, rfl⟩ := List.mem_map.mp hp
        exact ih o p hmem
      have hvisit := foldl_visit_bare hrefs { walk with entered := r.id.location :: walk.entered }
      rw [visit_eq, visit_eq, bare_id, visitAll_eq_foldl, visitAll_eq_foldl, bare_references_snd]
      show (if walk.entered.contains r.id.location = true then _ else _) = _
      split
      · rfl
      · rw [show ({ walk.bare with entered := r.id.location :: walk.bare.entered } : Walk) =
            Walk.bare { walk with entered := r.id.location :: walk.entered } from rfl, hvisit]
        rfl

/-- The order does not depend on when results were made. -/
theorem dependencyOrder_bare (roots : List Resolution) :
    dependencyOrder (roots.map bare) = (dependencyOrder roots).map bare := by
  unfold dependencyOrder
  rw [show (⟨[], []⟩ : Walk) = Walk.bare ⟨[], []⟩ from rfl,
    foldl_visit_bare fun r _ => visit_bare r]
  show List.reverse (List.map bare _) = _
  rw [List.map_reverse]
  rfl

/-! ## What a walk leaves -/

theorem foldl_visit_left {roots : List Resolution}
    (h : ∀ r ∈ roots, ∀ walk : Walk, ∃ new, (r.visit walk).left = new ++ walk.left ∧
      ∀ q ∈ new, ReflTransGen Holds r q) (walk : Walk) :
    ∃ new, (roots.foldl (fun walk r => r.visit walk) walk).left = new ++ walk.left ∧
      ∀ q ∈ new, HeldBy roots q := by
  induction roots generalizing walk with
  | nil => exact ⟨[], rfl, nofun⟩
  | cons r roots ih =>
      obtain ⟨new, hnew, hheld⟩ := h r List.mem_cons_self walk
      obtain ⟨new', hnew', hheld'⟩ :=
        ih (fun q hq => h q (List.mem_cons_of_mem _ hq)) (r.visit walk)
      refine ⟨new' ++ new, ?_, fun q hq => ?_⟩
      · rw [List.foldl_cons, hnew', hnew, List.append_assoc]
      · rcases List.mem_append.mp hq with hq | hq
        · obtain ⟨p, hp, hpq⟩ := hheld' q hq
          exact ⟨p, List.mem_cons_of_mem _ hp, hpq⟩
        · exact ⟨r, List.mem_cons_self, hheld q hq⟩

/-- A visit leaves results that are held, and keeps what was left before. -/
theorem visit_left (r : Resolution) :
    ∀ walk : Walk, ∃ new, (r.visit walk).left = new ++ walk.left ∧ ∀ q ∈ new,
      ReflTransGen Holds r q := by
  induction r using held_induction with
  | h r ih =>
      intro walk
      rw [visit_eq, visitAll_eq_foldl]
      split
      · exact ⟨[], rfl, nofun⟩
      · have hrefs : ∀ p ∈ r.references.map Prod.snd, ∀ walk : Walk,
            ∃ new, (p.visit walk).left = new ++ walk.left ∧ ∀ q ∈ new, ReflTransGen Holds p q := by
          intro p hp
          obtain ⟨⟨o, p⟩, hmem, rfl⟩ := List.mem_map.mp hp
          exact ih o p hmem
        obtain ⟨new, hnew, hheld⟩ :=
          foldl_visit_left hrefs { walk with entered := r.id.location :: walk.entered }
        refine ⟨r :: new, congrArg (r :: ·) hnew, fun q hq => ?_⟩
        rcases List.mem_cons.mp hq with rfl | hq
        · exact .refl
        · obtain ⟨p, hp, hpq⟩ := hheld q hq
          obtain ⟨⟨o, p⟩, hmem, rfl⟩ := List.mem_map.mp hp
          exact .head ⟨o, hmem⟩ hpq

theorem heldBy_of_mem_dependencyOrder {roots : List Resolution} {q : Resolution}
    (h : q ∈ dependencyOrder roots) :
    HeldBy roots q := by
  obtain ⟨new, hnew, hheld⟩ := @foldl_visit_left roots (fun r _ => visit_left r) ⟨[], []⟩
  refine hheld q ?_
  unfold dependencyOrder at h
  rw [hnew] at h
  simpa using h

/-- Further roots only add to the end of an order. -/
theorem dependencyOrder_prefix (roots more : List Resolution) :
    dependencyOrder roots <+: dependencyOrder (roots ++ more) := by
  unfold dependencyOrder
  rw [List.foldl_append]
  obtain ⟨new, hnew, -⟩ := @foldl_visit_left more (fun r _ => visit_left r)
    (roots.foldl (fun walk r => r.visit walk) ⟨[], []⟩)
  rw [hnew, List.reverse_append]
  exact List.prefix_append _ _

/-! ## Consistent roots -/

/-- Results that `roots` hold for one file are alike: they differ at most in when they, and what
they hold, were made. -/
def Consistent (roots : List Resolution) : Prop :=
  ∀ r q, HeldBy roots r → HeldBy roots q → r.id.location = q.id.location → r.bare = q.bare

/-- The list `order` has each file that `roots` hold once, and every result after all
that it references. -/
structure ListsFiles (roots order : List Resolution) : Prop where
  held : ∀ q ∈ order, HeldBy roots q
  nodup : (order.map (·.id.location)).Nodup
  files : ∀ l, (∃ q ∈ order, q.id.location = l) ↔ ∃ q, HeldBy roots q ∧ q.id.location = l
  ordered : ∀ before r after, order = before ++ r :: after → ∀ p, r.Holds p →
    ∃ q ∈ before, q.id.location = p.id.location ∧ q.bare = p.bare

section

variable {roots : List Resolution}

theorem Consistent.unanimous (h : Consistent roots) : Unanimous (HeldBy (roots.map bare)) where
  held hr hp := hr.holds hp
  unique hr hq hl := by
    obtain ⟨r', hr', rfl⟩ := heldBy_bare_iff.mp hr
    obtain ⟨q', hq', rfl⟩ := heldBy_bare_iff.mp hq
    exact h r' q' hr' hq' (by simpa using hl)

theorem Consistent.listsFiles (h : Consistent roots) :
    ListsFiles roots (dependencyOrder roots) := by
  have hbare : Lists (roots.map bare) ((dependencyOrder roots).map bare) :=
    dependencyOrder_bare roots ▸ dependencyOrder_lists h.unanimous fun r hr => ⟨r, hr, .refl⟩
  refine ⟨fun q => heldBy_of_mem_dependencyOrder, ?_, fun l => ⟨?_, ?_⟩, ?_⟩
  · have hnodup := hbare.nodup
    rw [List.map_map] at hnodup
    simpa [Function.comp_def] using hnodup
  · rintro ⟨q, hq, hl⟩
    exact ⟨q, heldBy_of_mem_dependencyOrder hq, hl⟩
  · rintro ⟨q, hq, rfl⟩
    obtain ⟨q', hq', heq⟩ :=
      List.mem_map.mp ((hbare.mem_iff q.bare).mpr (heldBy_bare_iff.mpr ⟨q, hq, rfl⟩))
    exact ⟨q', hq', by rw [← bare_id q', heq, bare_id]⟩
  · intro before r after hsplit p hp
    have hsplit' : (dependencyOrder roots).map bare =
        before.map bare ++ r.bare :: after.map bare := by
      rw [hsplit, List.map_append, List.map_cons]
    obtain ⟨q, hq, heq⟩ :=
      List.mem_map.mp (hbare.ordered _ _ _ hsplit' p.bare (holds_bare_iff.mpr ⟨p, hp, rfl⟩))
    exact ⟨q, hq, by rw [← bare_id q, heq, bare_id], heq⟩

end

/-- **Dependency order.** If the results that some roots hold for one file are alike, the dependency
order lists exactly the files that the roots hold, each once, and every result after all that it
references. Further roots only add to its end. -/
theorem dependencyOrder_of_consistent {roots : List Resolution} (h : Consistent roots)
    (more : List Resolution) :
    ListsFiles roots (dependencyOrder roots) ∧
      dependencyOrder roots <+: dependencyOrder (roots ++ more) :=
  ⟨h.listsFiles, dependencyOrder_prefix roots more⟩

/-- What is closed under references holds all that its members hold. -/
theorem HeldBy.mem_of_closed {roots all : List Resolution} {q : Resolution} (h : HeldBy roots q)
    (hroots : ∀ r ∈ roots, r ∈ all)
    (hclosed : ∀ r ∈ all, ∀ x ∈ r.references, x.2 ∈ all) : q ∈ all := by
  obtain ⟨r, hr, hq⟩ := h
  induction hq with
  | refl => exact hroots r hr
  | tail _ hp ih =>
      obtain ⟨o, hp⟩ := hp
      exact hclosed _ ih (o, _) hp

/-- The result of the project `/name`, which was made as the one with the number `stamp` and
holds `references`. -/
def madeAs (stamp : Nat) (name : String) (references : List Resolution) : Resolution :=
  { empty stamp ⟨⟨[name]⟩, .project⟩ (.at stamp) with
    references := references.map (none, ·)
    declared := references.map (·.id) }

/-- Two projects that reference a third one, which was made again between them. -/
def baseMadeTwice : List Resolution :=
  [madeAs 1 "left.fsproj" [madeAs 0 "base.fsproj" []],
    madeAs 3 "right.fsproj" [madeAs 2 "base.fsproj" []]]

theorem baseMadeTwice_consistent : Consistent baseMadeTwice := by
  let all := baseMadeTwice ++ [madeAs 0 "base.fsproj" [], madeAs 2 "base.fsproj" []]
  have hall : ∀ q, HeldBy baseMadeTwice q → q ∈ all := by
    intro q hq
    refine hq.mem_of_closed (fun r hr => List.mem_append_left _ hr) ?_
    simp [all, baseMadeTwice, madeAs, empty]
  -- each is like the first one of its file
  have hfirst : ∀ q ∈ all, (all.find? (·.id.location = q.id.location)).map bare = some q.bare := by
    intro q hq
    simp only [all, baseMadeTwice, List.cons_append, List.nil_append, List.mem_cons,
      List.not_mem_nil, or_false] at hq
    rcases hq with rfl | rfl | rfl | rfl <;> rfl
  intro r q hr hq hl
  have hr := hfirst r (hall r hr)
  rw [hl, hfirst q (hall q hq)] at hr
  exact (Option.some.inj hr).symm

theorem dependencyOrder_of_consistent_baseMadeTwice :
    Consistent baseMadeTwice ∧ ListsFiles baseMadeTwice (dependencyOrder baseMadeTwice) ∧
      dependencyOrder baseMadeTwice <+: dependencyOrder
        (baseMadeTwice ++ [madeAs 4 "top.fsproj" baseMadeTwice]) ∧
      (dependencyOrder baseMadeTwice).map (·.stamp) = [0, 1, 3] := by
  have h :=
    dependencyOrder_of_consistent baseMadeTwice_consistent [madeAs 4 "top.fsproj" baseMadeTwice]
  exact ⟨baseMadeTwice_consistent, h.1, h.2, by decide⟩

end FSharpWorkspace.Resolution
