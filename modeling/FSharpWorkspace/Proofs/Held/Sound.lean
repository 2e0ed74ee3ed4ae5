import FSharpWorkspace.Proofs.Workspace.Reported
/-!
# Sound workspaces

A workspace is sound if every result in the map is what the table makes of its file, and holds only
results that are in the map (`Workspace.Sound`). A change of the table that the workspace was not
told of yet is excepted: its file is `pending`. Changes keep a workspace sound, because the cascade
drops whatever declares a file that is dropped.
-/

set_option autoImplicit false

namespace FSharpWorkspace

/-- What is true of a result `r` that the map has for the file at `l`. -/
structure Workspace.Keeps (w : Workspace Memory) (pending : List Location) (l : Location)
    (r : Resolution) :
    Prop where
  place : r.id.location = l
  wellFormed : r.id.WellFormed
  stamp : r.stamp < w.made
  grounded : r.Grounded
  held : ∀ o p, (o, p) ∈ r.references → w.cache.peek p.id.location = some p
  reported : l ∉ pending → r.Reported w.outside

/-- Every result in the map is as it should be. -/
structure Workspace.Sound (w : Workspace Memory) (pending : List Location) : Prop where
  tidy : w.Tidy
  keeps : ∀ l r, w.cache.peek l = some r → w.Keeps pending l r

theorem Workspace.Sound.fresh (m : Memory) : (Workspace.fresh m).Sound [] where
  tidy := .fresh m
  keeps l r h := by simp at h

section

variable {w w' : Workspace Memory} {pending : List Location}

/-- The results that a result in the map holds, at any depth, are in the map. -/
theorem Workspace.Sound.cached_of_trail (hw : w.Sound pending) {E : List Location}
    {roots : List (Option Location × Resolution)} {path : List Location} {q : Resolution}
    (hr : ∀ o r, (o, r) ∈ roots → w.cache.peek r.id.location = some r)
    (h : Resolution.Trail E roots path q) : w.cache.peek q.id.location = some q := by
  induction h with
  | root hmem _ => exact hr _ _ hmem
  | under hmem _ _ ih => exact ih (hw.keeps _ _ (hr _ _ hmem)).held

/-- A change drops what was changed and whatever depends on it. Then `pending` may shrink
by what was changed. -/
theorem Workspace.Sound.changes {xs : List Location} (hw : w.Sound pending) (h : Changes xs w w') :
    w'.Sound (pending.filter (· ∉ xs)) where
  tidy := hw.tidy.changes h
  keeps l r hp := by
    obtain ⟨hp', hl⟩ := (h.peek hw.tidy.lone l r).mp hp
    have hk := hw.keeps l r hp'
    refine ⟨hk.place, hk.wellFormed, h.made ▸ hk.stamp, hk.grounded, fun o p ho => ?_, fun hn => ?_⟩
    · rw [h.peek hw.tidy.lone]
      refine ⟨hk.held o p ho, ?_⟩
      exact hk.grounded.avoids (hk.place ▸ hl) (fun x hx => h.closed x hx l r hp) ho
    · refine (hk.reported fun hm => hn ?_).congr (h.report _ (hk.place ▸ hl))
      exact List.mem_filter.mpr ⟨hm, by simpa using hl⟩

theorem Workspace.Sound.mono {pending' : List Location} (hw : w.Sound pending)
    (h : ∀ l ∈ pending, l ∈ pending') :
    w.Sound pending' where
  tidy := hw.tidy
  keeps l r hp :=
    { hw.keeps l r hp with reported := fun hn => (hw.keeps l r hp).reported fun hm => hn (h l hm) }

theorem Workspace.Sound.changes_nil {xs : List Location} (hw : w.Sound [])
    (h : Changes xs w w') : w'.Sound [] := by
  simpa using hw.changes h

theorem Workspace.Sound.cracks {l : Location} {xs ys : List Location} {report : CrackReport}
    (hw : w.Sound []) (h : Cracks l xs ys w report w') : w'.Sound [] := by
  obtain ⟨wₘ, hx, -, hy⟩ := h.moment
  exact (hw.changes_nil hx).changes_nil hy

theorem Workspace.Sound.claim {l : Location} {s : Serial} {id : Identity} {c : Cache Resolution}
    (hw : w.Sound pending) (hid : id.WellFormed) (h : w.cache.Claims 0 l s id c) :
    Workspace.Sound { w with cache := c } pending where
  tidy := hw.tidy.claim hid h
  keeps l' r hp := by
    have hpeek := h.peek hw.tidy.lone
    have hk := hw.keeps l' r (by rw [← hpeek]; exact hp)
    refine ⟨hk.place, hk.wellFormed, hk.stamp, hk.grounded, fun o p ho => ?_, hk.reported⟩
    show c.peek p.id.location = some p
    rw [hpeek]
    exact hk.held o p ho

/-- The table may be changed for a file before the workspace is told, which
makes the file pending. -/
theorem Workspace.Sound.outside (hw : w.Sound pending) {m : Memory} {l : Location}
    (hm : ∀ x, x ≠ l → m.report x = w.outside.report x) :
    Workspace.Sound { w with outside := m } (l :: pending) where
  tidy := hw.tidy.outside m
  keeps l' r hp := by
    have hk := hw.keeps l' r hp
    refine ⟨hk.place, hk.wellFormed, hk.stamp, hk.grounded, hk.held, fun hn => ?_⟩
    obtain ⟨hne, hn⟩ := not_or.mp (List.mem_cons.not.mp hn)
    refine (hk.reported hn).congr (hm _ ?_)
    rw [hk.place]
    exact hne

end

end FSharpWorkspace
