import FSharpWorkspace.Proofs.Cache.Entries
import Mathlib.Logic.Relation
/-!
# The graph of waits

A `WaitGraph` is two tables: who owns an entry, and which entry a thread waits for. Composed they
are the relation `WaitGraph.Follows`, a partial function on threads.

The search of `WaitGraph.leadsBack` has a bound on its steps, and still finds whatever can be
reached (`leadsBack_iff`): every step but the last looks at a thread that waits, and no shortest way
looks at one twice. This needs no assumption on the graph, not even that it has no circle.

A graph without a circle stays one when edges are taken away, when edges are added that lead to
somebody who follows nobody (`Acyclic.of_sink`), and when an edge is added from whose end no way
leads back (`Acyclic.of_edge`).
-/

set_option autoImplicit false

namespace FSharpWorkspace

open Relation

/-! ## The graph -/

namespace WaitGraph

def Follows (w : WaitGraph) (t u : Thread) : Prop := w.next? t = some u

theorem follows_iff {w : WaitGraph} {t u : Thread} :
    w.Follows t u ↔ ∃ s, w.waiting.lookup t = some s ∧ w.owners.lookup s = some u :=
  Option.bind_eq_some_iff

theorem Follows.right_unique {w : WaitGraph} {t u v : Thread} (hu : w.Follows t u)
    (hv : w.Follows t v) : u = v :=
  Option.some.inj (hu.symm.trans hv)

/-! ### What the operations do to the tables -/

theorem lookup_owners_own (w : WaitGraph) (s r : Serial) (t : Thread) :
    (w.own s t).owners.lookup r = if r = s then some t else w.owners.lookup r := by
  show List.lookup r ((s, t) :: w.owners.filter (·.1 ≠ s)) = _
  rw [List.lookup_cons]
  by_cases h : r = s
  · simp [h]
  · rw [if_neg h, beq_false_of_ne h, lookup_filter_ne w.owners h]

theorem lookup_owners_disown (w : WaitGraph) (s r : Serial) :
    (w.disown s).owners.lookup r = if r = s then none else w.owners.lookup r := by
  show List.lookup r (w.owners.filter (·.1 ≠ s)) = _
  by_cases h : r = s
  · rw [if_pos h, h, lookup_filter_self]
  · rw [if_neg h, lookup_filter_ne w.owners h]

theorem lookup_waiting_wait (w : WaitGraph) (t u : Thread) (s : Serial) :
    (w.wait t s).waiting.lookup u = if u = t then some s else w.waiting.lookup u := by
  show List.lookup u ((t, s) :: w.waiting.filter (·.1 ≠ t)) = _
  rw [List.lookup_cons]
  by_cases h : u = t
  · simp [h]
  · rw [if_neg h, beq_false_of_ne h, lookup_filter_ne w.waiting h]

theorem lookup_waiting_wake (w : WaitGraph) (t u : Thread) :
    (w.wake t).waiting.lookup u = if u = t then none else w.waiting.lookup u := by
  show List.lookup u (w.waiting.filter (·.1 ≠ t)) = _
  by_cases h : u = t
  · rw [if_pos h, h, lookup_filter_self]
  · rw [if_neg h, lookup_filter_ne w.waiting h]

theorem Follows.of_disown {w : WaitGraph} {s : Serial} {t u : Thread}
    (h : (w.disown s).Follows t u) :
    w.Follows t u := by
  obtain ⟨r, hr, hu⟩ := follows_iff.mp h
  rw [lookup_owners_disown] at hu
  split at hu
  · cases hu
  · exact follows_iff.mpr ⟨r, hr, hu⟩

theorem follows_wake {w : WaitGraph} {t u v : Thread} :
    (w.wake t).Follows u v ↔ u ≠ t ∧ w.Follows u v := by
  simp only [follows_iff, lookup_waiting_wake]
  by_cases h : u = t
  · simp [h]
  · simp only [h, not_false_eq_true, true_and, ne_eq]
    rfl

theorem Follows.of_own {w : WaitGraph} {s : Serial} {t u v : Thread} (h : (w.own s t).Follows u v) :
    v = t ∨ w.Follows u v := by
  obtain ⟨r, hr, hv⟩ := follows_iff.mp h
  rw [lookup_owners_own] at hv
  split at hv
  · exact Or.inl (Option.some.inj hv).symm
  · exact Or.inr (follows_iff.mpr ⟨r, hr, hv⟩)

theorem Follows.of_wait {w : WaitGraph} {s : Serial} {t u v : Thread}
    (h : (w.wait t s).Follows u v) :
    (u = t ∧ w.owners.lookup s = some v) ∨ w.Follows u v := by
  obtain ⟨r, hr, hv⟩ := follows_iff.mp h
  rw [lookup_waiting_wait] at hr
  split at hr
  · rename_i hu
    cases hr
    exact Or.inl ⟨hu, hv⟩
  · exact Or.inr (follows_iff.mpr ⟨r, hr, hv⟩)

def Once (w : WaitGraph) : Prop := ∀ t s, (t, s) ∈ w.waiting → w.waiting.lookup t = some s

theorem Once.wait {w : WaitGraph} (hw : w.Once) (t : Thread) (s : Serial) : (w.wait t s).Once := by
  intro u r h
  rw [lookup_waiting_wait]
  rcases List.mem_cons.mp h with heq | h
  · obtain ⟨rfl, rfl⟩ := Prod.mk.inj heq
    exact if_pos rfl
  · obtain ⟨hmem, hne⟩ := List.mem_filter.mp h
    rw [if_neg (by simpa using hne)]
    exact hw u r hmem

theorem Once.wake {w : WaitGraph} (hw : w.Once) (t : Thread) : (w.wake t).Once := by
  intro u r h
  obtain ⟨hmem, hne⟩ := List.mem_filter.mp h
  rw [lookup_waiting_wake, if_neg (by simpa using hne)]
  exact hw u r hmem

/-- Who does not wait follows nobody. -/
theorem not_follows {w : WaitGraph} {t u : Thread}
    (h : w.waiting.lookup t = none) : ¬ w.Follows t u := by
  intro hf
  obtain ⟨s, hs, -⟩ := follows_iff.mp hf
  cases h.symm.trans hs

/-! ### The search -/

theorem reflTransGen_of_meets {w : WaitGraph} {me : Thread} :
    ∀ {n : Nat} {owner : Thread}, w.meets me n owner = true → ReflTransGen w.Follows owner me := by
  intro n
  induction n with
  | zero => intro owner h; cases h
  | succ n ih =>
      intro owner h
      unfold meets at h
      split at h
      · rename_i heq
        exact heq ▸ .refl
      · split at h
        · rename_i next hnext
          exact .head hnext (ih h)
        · cases h

/-- A search that succeeds does so in every larger graph. -/
theorem meets_mono {w w' : WaitGraph} {me : Thread} (hw : ∀ t u, w.Follows t u → w'.Follows t u) :
    ∀ {n : Nat} {owner : Thread}, w.meets me n owner = true → w'.meets me n owner = true := by
  intro n
  induction n with
  | zero => intro owner h; cases h
  | succ n ih =>
      intro owner h
      unfold meets at h ⊢
      split
      · rfl
      · rename_i hne
        rw [if_neg hne] at h
        split at h
        · rename_i next hnext
          rw [show w'.next? owner = some next from hw owner next hnext]
          exact ih h
        · cases h

/-- A way that comes through `t` can be cut short there: it goes on from the one that `t` follows,
and never comes back. -/
theorem reflTransGen_wake {w : WaitGraph} {t next x me : Thread} (ht : w.Follows t next)
    (h : ReflTransGen w.Follows x me) :
    ReflTransGen (w.wake t).Follows x me ∨ ReflTransGen (w.wake t).Follows next me := by
  induction h using ReflTransGen.head_induction_on with
  | refl => exact Or.inl .refl
  | @head x y hxy _ ih =>
      rcases ih with hy | hn
      · by_cases hx : x = t
        · subst hx
          exact Or.inr (ht.right_unique hxy ▸ hy)
        · exact Or.inl (.head (follows_wake.mpr ⟨hx, hxy⟩) hy)
      · exact Or.inr hn

theorem length_wake_lt {w : WaitGraph} {t : Thread} {s : Serial} (h : w.waiting.lookup t = some s) :
    (w.wake t).waiting.length < w.waiting.length := by
  obtain ⟨before, after, hsplit, -⟩ := List.lookup_eq_some_iff.mp h
  refine List.length_filter_lt_length_iff_exists.mpr ⟨(t, s), ?_, by simp⟩
  rw [hsplit]
  simp

/-- The search needs one step more than there are threads that wait: after every step but the last,
a waiting thread can be taken out of the graph. -/
theorem meets_of_reflTransGen {me : Thread} :
    ∀ {n : Nat} {w : WaitGraph} {owner : Thread}, w.waiting.length ≤ n →
      ReflTransGen w.Follows owner me →
      w.meets me (n + 1) owner = true := by
  intro n
  induction n with
  | zero =>
      intro w owner hlen h
      rcases ReflTransGen.cases_head h with rfl | ⟨next, hnext, -⟩
      · simp [meets]
      · have hnil : w.waiting = [] := List.length_eq_zero_iff.mp (Nat.le_zero.mp hlen)
        exact absurd hnext (not_follows (by rw [hnil]; rfl))
  | succ n ih =>
      intro w owner hlen h
      rcases ReflTransGen.cases_head h with rfl | ⟨next, hnext, hrest⟩
      · simp [meets]
      · obtain ⟨s, hs, -⟩ := follows_iff.mp hnext
        have hshort : (w.wake owner).waiting.length ≤ n :=
          Nat.le_of_lt_succ (Nat.lt_of_lt_of_le (length_wake_lt hs) hlen)
        have hcut : ReflTransGen (w.wake owner).Follows next me :=
          (reflTransGen_wake hnext hrest).elim id id
        have hmeets : w.meets me (n + 1) next = true :=
          meets_mono (fun _ _ hf => (follows_wake.mp hf).2) (ih hshort hcut)
        unfold meets
        split
        · rfl
        · rw [show w.next? owner = some next from hnext]
          exact hmeets

/-- The search for a way back is exact, whatever the graph. -/
theorem leadsBack_iff (w : WaitGraph) (me owner : Thread) :
    w.leadsBack me owner = true ↔ ReflTransGen w.Follows owner me :=
  ⟨reflTransGen_of_meets, meets_of_reflTransGen (Nat.le_refl _)⟩

/-! ### Circles -/

/-- Nobody follows themselves around a circle. -/
def Acyclic (w : WaitGraph) : Prop := ∀ t, ¬ TransGen w.Follows t t

theorem Acyclic.mono {w w' : WaitGraph} (hw : w.Acyclic)
    (h : ∀ t u, w'.Follows t u → w.Follows t u) : w'.Acyclic :=
  fun t ht => hw t (TransGen.mono h t t ht)

/-- Edges that lead to somebody who follows nobody close no circle. -/
theorem Acyclic.of_sink {w w' : WaitGraph} {t : Thread} (hw : w.Acyclic)
    (ht : ∀ v, ¬ w'.Follows t v)
    (h : ∀ u v, w'.Follows u v → v = t ∨ w.Follows u v) : w'.Acyclic := by
  intro x hx
  have hne : x ≠ t := by
    rintro rfl
    obtain ⟨v, hv, -⟩ := TransGen.head'_iff.mp hx
    exact ht v hv
  -- a way that does not end at `t` never comes there
  have key : ∀ y, TransGen w'.Follows y x → TransGen w.Follows y x := by
    intro y hy
    induction hy using TransGen.head_induction_on with
    | single hyx => exact .single ((h _ _ hyx).resolve_left hne)
    | head hyz hzx ih =>
        refine .head ((h _ _ hyz).resolve_left ?_) ih
        rintro rfl
        obtain ⟨v, hv, -⟩ := TransGen.head'_iff.mp hzx
        exact ht v hv
  exact hw x (key x hx)

/-- One more edge from `t` closes a circle only if a way led back to `t`. -/
theorem Acyclic.of_edge {w w' : WaitGraph} {t owner : Thread} (hw : w.Acyclic)
    (hback : ¬ ReflTransGen w.Follows owner t)
    (h : ∀ u v, w'.Follows u v → (u = t ∧ v = owner) ∨ w.Follows u v) : w'.Acyclic := by
  -- what can be reached in the new graph could be reached before, or it is beyond the new edge
  have key : ∀ {x y}, TransGen w'.Follows x y →
      TransGen w.Follows x y ∨ (ReflTransGen w.Follows x t ∧ ReflTransGen w.Follows owner y) := by
    intro x y hxy
    induction hxy with
    | single hxy =>
        rcases h _ _ hxy with ⟨rfl, rfl⟩ | hxy
        · exact Or.inr ⟨.refl, .refl⟩
        · exact Or.inl (.single hxy)
    | tail _ hyz ih =>
        rcases h _ _ hyz with ⟨rfl, rfl⟩ | hyz
        · rcases ih with hxy | ⟨hxt, -⟩
          · exact Or.inr ⟨hxy.to_reflTransGen, .refl⟩
          · exact Or.inr ⟨hxt, .refl⟩
        · rcases ih with hxy | ⟨hxt, hy⟩
          · exact Or.inl (hxy.tail hyz)
          · exact Or.inr ⟨hxt, hy.tail hyz⟩
  intro x hx
  rcases key hx with hx | ⟨hxt, hox⟩
  · exact hw x hx
  · exact hback (hox.trans hxt)

end WaitGraph

end FSharpWorkspace
