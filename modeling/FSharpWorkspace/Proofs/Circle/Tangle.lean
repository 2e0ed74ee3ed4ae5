import FSharpWorkspace.Proofs.Circle.Ring
/-!
# Tangles of circles

Circles of references may overlap. Projects are tangled if each can be reached from the other; a
project ties its tangle if every circle of the tangle passes through it (`Memory.Ties`). In a tangle
that is one single circle every project does.

A circle that is found in a tied tangle while the project that ties it is being resolved goes back
at least as far as that project (`Memory.Ties.mem_circle`).
-/

set_option autoImplicit false

namespace FSharpWorkspace

/-! ## Tangles -/

/-- Each of the projects at `l` and `x` is reached from the other along references. -/
def Memory.Tangled (m : Memory) (l x : Location) : Prop :=
  Relation.ReflTransGen m.Links l x ∧ Relation.ReflTransGen m.Links x l

/-- A reference between projects other than the one at `l`. -/
def Memory.LinksOff (m : Memory) (l x y : Location) : Prop := m.Links x y ∧ x ≠ l ∧ y ≠ l

/-- The project at `l` is on a circle, and every circle of its tangle passes through it. -/
structure Memory.Ties (m : Memory) (l : Location) : Prop where
  onCircle : Relation.TransGen m.Links l l
  through : ∀ x, m.Tangled l x → ¬ Relation.TransGen (m.LinksOff l) x x

section

variable {m : Memory} {l x y : Location}

/-- What lies on a way within a tangle belongs to it. -/
theorem Memory.Tangled.between (h : m.Tangled l x) (hxy : Relation.ReflTransGen m.Links x y)
    (hyl : Relation.ReflTransGen m.Links y l) : m.Tangled l y :=
  ⟨h.1.trans hxy, hyl⟩

theorem Memory.Tangled.trans_circle (h : m.Tangled l x) (hxy : Relation.ReflTransGen m.Links x y)
    (hyx : Relation.ReflTransGen m.Links y x) : m.Tangled l y :=
  h.between hxy (hyx.trans h.2)

/-- Every project of a tangle references one of them. -/
theorem Memory.Ties.next (h : m.Ties l) (hx : m.Tangled l x) :
    ∃ y, m.Links x y ∧ m.Tangled l y := by
  have hxl : Relation.TransGen m.Links x l := Relation.TransGen.trans_right hx.2 h.onCircle
  obtain ⟨y, hxy, hyl⟩ := Relation.TransGen.head'_iff.mp hxl
  exact ⟨y, hxy, hx.between (.single hxy) hyl⟩

/-- What is referenced is a project. -/
theorem Memory.Links.project (h : m.Links x y) {id : Identity} (hid : id.WellFormed)
    (hplace : id.location = y) :
    id.kind = .project := by
  obtain ⟨dep, hdep, hy⟩ := h
  obtain ⟨hwf, hk⟩ := CrackReport.links_wellFormed hdep
  rw [hid.eq hwf (hplace.trans hy.symm)]
  exact hk

/-- Every file of a tied tangle is a project, for it is referenced. -/
theorem Memory.Ties.project (h : m.Ties l) (hx : m.Tangled l x) {id : Identity}
    (hid : id.WellFormed) (hplace : id.location = x) : id.kind = .project := by
  have hlx : Relation.TransGen m.Links l x := h.onCircle.trans_left hx.1
  obtain ⟨y, -, hyx⟩ := Relation.TransGen.tail'_iff.mp hlx
  exact hyx.project hid hplace

/-- A circle of a tied tangle passes through the project that ties it. -/
theorem Memory.Ties.mem_of_encircled (h : m.Ties l) (hx : m.Tangled l x) {members : List Identity}
    (hc : Encircled m.Links x members) : l ∈ places members := by
  by_contra hl
  have hoff : Encircled (m.LinksOff l) x members := by
    refine hc.imp fun a ha b hb hab => ⟨hab, ?_, ?_⟩
    · rintro rfl
      exact hl ha
    · rintro rfl
      exact hl hb
  exact h.through x hx (hoff.ring.transGen hoff.mem hoff.mem)

/-- Of two ends of a list without repetitions, the one that starts with `l` is part of the
other if that has `l`. -/
theorem subset_of_suffix {α : Type} {xs ys zs : List α} {l : α} (hxs : xs.Nodup)
    (hys : l :: ys <:+ xs) (hzs : zs <:+ xs) (hl : l ∈ zs) : ∀ y ∈ l :: ys, y ∈ zs := by
  rcases List.suffix_or_suffix_of_suffix hys hzs with h | h
  · exact fun y hy => h.subset hy
  · rcases List.suffix_cons_iff.mp h with rfl | h
    · exact fun y hy => hy
    · have hnodup := hxs.sublist hys.sublist
      exact absurd (h.subset hl) (List.nodup_cons.mp hnodup).1

/-- While the project that ties a tangle is being resolved, a circle that is closed in the tangle
takes in everything from that project on. -/
theorem Memory.Ties.mem_circle (h : m.Ties l) {path : List Identity} {closing : Identity}
    {pre post : List Location} (hpath : places path = pre ++ l :: post)
    (hnodup : (places path).Nodup) (hc : closing.location ∈ places path)
    (ht : m.Tangled l closing.location) (hchain : (places (path ++ [closing])).IsChain m.Links) :
    ∀ y ∈ l :: post, y ∈ places (circle path closing) := by
  have hne : path ≠ [] := by
    rintro rfl
    cases hc
  obtain ⟨z, hz⟩ := Option.ne_none_iff_exists'.mp (mt List.getLast?_eq_none_iff.mp hne)
  have henc := circle_encircled hz hc hchain
  -- the end of the path is in the tangle too
  have hzl : z.location ∈ (l :: post).getLast? := by
    have hlast := places_getLast? hz
    rw [hpath, List.getLast?_append_of_ne_nil _ (by simp)] at hlast
    exact hlast
  rw [places_concat] at hchain
  have hlz : Relation.ReflTransGen m.Links l z.location := by
    rw [hpath] at hchain
    exact reach_getLast hchain.left_of_append.right_of_append (List.mem_cons_self) hzl
  have hlink : m.Links z.location closing.location := by
    refine (List.isChain_append.mp hchain).2.2 z.location ?_ closing.location (by simp)
    rw [hpath, List.getLast?_append_of_ne_nil _ (by simp)]
    exact hzl
  have htz : m.Tangled l z.location := ⟨hlz, .head hlink ht.2⟩
  refine subset_of_suffix hnodup ⟨pre, hpath.symm⟩ ?_ (h.mem_of_encircled htz henc)
  rw [circle_eq hc]
  exact (List.dropWhile_suffix _).map _

end

end FSharpWorkspace
