import FSharpWorkspace.Proofs.Circle.Runs
import FSharpWorkspace.Proofs.Sequential.Still
/-!
# Sound workspaces while nothing changes

While nothing changes, a resolution invalidates nothing (`Steps.fetched_still`). So no query loses a
result (`ReachedFreely.spares`).
-/

set_option autoImplicit false

namespace FSharpWorkspace

/-- Cracking a project changes nothing but how often it was cracked. -/
theorem surroundings_cracksWithin : CracksWithin Memory.surroundings (· = []) := by
  intro l w report w' _ h
  cases h
  exact ⟨[], [], rfl, rfl, ⟨_, .refl w, rfl, countCrack_changes l w⟩,
    Memory.cracksOf_countCrack w.outside l⟩

section

variable {w w₁ w' : Workspace Memory}

theorem nothingRule :
    ResolveRule (· = []) (fun E _ _ _ _ _ => E = []) (fun E _ _ _ _ _ _ => E = []) where
  ready _ _ _ := rfl
  refused _ _ _ := rfl
  leaf _ _ _ _ _ := rfl
  project _ _ _ hxs hys _ _ hE _ _ _ := by rw [hxs, hys, hE, List.append_nil, List.append_nil]
  nil _ := rfl
  cons _ _ _ _ hE _ hE' := by rw [hE, hE', List.append_nil]

/-- Resolving a file while nothing changes invalidates nothing. -/
theorem Steps.fetched_still {id : Identity} {path : List Identity}
    {a : Except (List Identity) Resolution}
    (h : Steps Memory.surroundings (.fetch id path) w (.fetched a) w') (hid : id.WellFormed)
    (hw : w.Sound []) :
    Fetched [] id w a w' := by
  obtain ⟨E, hf, hE⟩ := h.brings surroundings_cracksWithin nothingRule hid hw
  exact hE ▸ hf

/-- What comes back while nothing changes is in the map. -/
theorem Fetched.peek {id : Identity} {r : Resolution} (h : Fetched [] id w (.ok r) w') :
    w'.cache.peek id.location = some r := by
  rcases (h.flight.trail [] r (.root (List.mem_singleton_self (r.target, r)) (by simp))).kept
    with hp | hd
  · rw [← (h.made r rfl).id]
    exact hp
  · obtain ⟨⟨m, hm, -⟩, -⟩ := hd
    cases hm

/-- Nothing is lost while nothing changes. -/
theorem Still.spares (h : Still w w') : Spares (fun _ => True) w w' := by
  intro n _ hlt _
  rcases h.once n with heq | ⟨heq, -, -, hr⟩
  · exact absurd hlt (heq ▸ Nat.lt_irrefl _)
  · exact ⟨heq, hr⟩

/-- Without crackers that make edits no query loses a result. -/
theorem ReachedFreely.spares {pending : List Location}
    (h : ReachedFreely Memory.surroundings w pending) :
    Reached Memory.surroundings (Spares fun _ => True) w pending := by
  induction h with
  | fresh m => exact .fresh m
  | query q h hq _ ih =>
      have hquiet := h.idle surroundings_mild
      exact .query q ih hq ((q.fetches surroundings_mild hquiet hq).still hquiet.tidy).spares
  | edit report _ hid hk ih => exact .edit report ih hid hk
  | change c _ hc hp ih => exact .change c ih hc hp
  | write p content _ ih => exact .write p content ih
  | remove p _ ih => exact .remove p ih

end

end FSharpWorkspace
