import FSharpWorkspace.Proofs.Workspace.Runs
/-!
# What a change drops

A change of a script or project takes out of the map the file itself and, transitively, every file
with a result that depends on a file taken out, and no others (`told_drops_reached`). All other
entries stay: those with a result keep it, and those in progress note every file that was taken out.
Nothing is resolved.
-/

set_option autoImplicit false

namespace FSharpWorkspace

/-- From `w` to `w'` the files `xs` were dropped because the file at `l` changed, and nothing else
happened but in the index. -/
structure Drops {σ : Type} (xs : List Location) (l : Location) (w w' : Workspace σ) : Prop where
  /-- The files are those that the change reaches, each of them once. -/
  nodup : xs.Nodup
  reached : ∀ x, x ∈ xs ↔ w.cache.Reaches Resolution.dependsOn l x
  /-- The map holds the entries of the other files; those in progress are marked with all
  the files dropped. -/
  left : ∀ x s e', w'.cache.Holds x s e' ↔ ∃ e, w.cache.Holds x s e ∧ x ∉ xs ∧ e' = e.markAll xs
  /-- Nothing was resolved, and nobody outside was asked. -/
  made : w'.made = w.made
  outside : w'.outside = w.outside

/-- The cascade drops what the change reaches, whatever is done to the index before. -/
theorem drops_changed {σ : Type} {w : Workspace σ} (hw : w.cache.Lone) (index : Index)
    (l : Location) :
    ∃ xs w', Act.changed l { w with index } = .ok () w' ∧ Drops xs l w w' := by
  obtain ⟨xs, hxs, hnodup, hmem⟩ := Cache.cascade_eq_foldl Resolution.dependsOn hw l
  refine ⟨xs, { w with index, cache := w.cache.cascade Resolution.dependsOn l }, rfl,
    hnodup, hmem, ?_, rfl, rfl⟩
  intro x s e'
  show (w.cache.cascade Resolution.dependsOn l).Holds x s e' ↔ _
  rw [hxs]
  exact Cache.holds_foldl_invalidate w.cache xs x s e'

/-- **A change drops exactly what it reaches**, whatever is in the map, finished or in progress. -/
theorem told_drops_reached {σ : Type} {w : Workspace σ} (hw : w.cache.Lone) {id : Identity}
    (hk : id.kind.isResolvable = true) {change : Identity → Act σ (Except Misuse Unit)}
    (hc : change = Act.created ∨ change = Act.updated ∨ change = Act.deleted) :
    ∃ xs w', change id w = .ok (.ok ()) w' ∧ Drops xs id.location w w' := by
  have hresolvable : ∀ (action : Act σ Unit) (w' : Workspace σ), action w = .ok () w' →
      Act.ifResolvable id action w = .ok (.ok ()) w' := by
    intro action w' ha
    unfold Act.ifResolvable
    rw [if_pos hk]
    exact Act.bind_ok ha rfl
  rcases hc with rfl | rfl | rfl
  · obtain ⟨xs, w', h, hd⟩ := drops_changed hw (w.index.insertProject id) id.location
    exact ⟨xs, w', hresolvable _ w' (Act.bind_ok rfl h), hd⟩
  · obtain ⟨xs, w', h, hd⟩ := drops_changed hw (w.index.insertProject id) id.location
    exact ⟨xs, w', hresolvable _ w' (Act.bind_ok rfl h), hd⟩
  · obtain ⟨xs, w', h, hd⟩ := drops_changed hw (w.index.removeProject id.location) id.location
    exact ⟨xs, w', hresolvable _ w' (Act.bind_ok rfl h), hd⟩

/-- The workspace in which `d.fsproj`, which references `x.fsproj` by two ways, and `u.fsproj`,
which references nothing, were asked for, and then `q.fsproj` is in progress. -/
def askedAroundDiamond : Workspace Memory :=
  (Act.request ⟨Memory.locate ⟨"q.fsproj"⟩, .project⟩).after
    (((Query.options ⟨"u.fsproj"⟩).run Memory.surroundings).after
      (((Query.options ⟨"d.fsproj"⟩).run Memory.surroundings).after
        (.fresh (.listing [("d.fsproj", ["a.fsproj", "b.fsproj"]), ("a.fsproj", ["x.fsproj"]),
          ("b.fsproj", ["x.fsproj"]), ("x.fsproj", []), ("u.fsproj", []),
            ("q.fsproj", ["x.fsproj"])]))))

set_option maxRecDepth 10000 in
theorem told_drops_reached_diamond :
    askedAroundDiamond.cache.Lone ∧ askedAroundDiamond.cache.size = 6 ∧
      askedAroundDiamond.cache.computed.length = 5 ∧
      ∃ xs w', Act.updated ⟨Memory.locate ⟨"x.fsproj"⟩,
        .project⟩ askedAroundDiamond = .ok (.ok ()) w' ∧
        Drops xs (Memory.locate ⟨"x.fsproj"⟩) askedAroundDiamond w' := by
  have hlone : askedAroundDiamond.cache.Lone := .of_pairwise (by decide +kernel)
  exact ⟨hlone, by decide +kernel, by decide +kernel,
    told_drops_reached hlone rfl (Or.inr (Or.inl rfl))⟩

end FSharpWorkspace
