import FSharpWorkspace.Proofs.Workspace.Steps
import Mathlib.Logic.Relation
/-!
# Moves

A cracker may call back. While a project is cracked, other files may be asked for, which are cracked
in their turn, and the workspace may be told of changes. What a single thread does to a workspace is
then a sequence of moves: a file is asked for, a result arrives at its entry or is given up, a file
is invalidated, and whatever is not in the cache changes (`Move`). Resolutions nest, so what is done
inside the crack of a project ends entries, but none that was in progress when the crack began:
`ends` says which entries a move may end.

`Move.turns` says everything that a move does to an entry. So a workspace stays tidy, with results
older than the next one (`Move.dated`), and what is in progress stays so until it is ended
(`Move.inFlight`).
-/

set_option autoImplicit false

namespace FSharpWorkspace

/-! ## Moves -/

/-- The entry with serial `s` is in progress for the file `id`. It may have left the map. -/
def Workspace.InFlight (w : Workspace Memory) (s : Serial) (id : Identity) : Prop :=
  ∃ e owner marks, w.cache.entries[s]? = some e ∧ e.id = id ∧ e.state = .inProgress owner marks

/-- One step of the only thread. It ends no entry but those that satisfy `ends`. -/
inductive Move (ends : Serial → Prop) : Workspace Memory → Workspace Memory → Prop where
  | ask {w w' : Workspace Memory} {id : Identity} {answer : Request Resolution} :
      id.WellFormed → Act.request id w = .ok answer w' → Move ends w w'
  | arrive {w : Workspace Memory} {s : Serial} {r : Resolution} :
      ends s → r.stamp = w.made → Move ends w (w.arrive s r)
  | abandon {w : Workspace Memory} {s : Serial} :
      ends s → Move ends w { w with cache := w.cache.abandon s }
  | invalidate (w : Workspace Memory) (l : Location) :
      Move ends w { w with cache := w.cache.invalidate l }
  | index (w : Workspace Memory) {index : Index} :
      (∀ id ∈ index.projects, id.WellFormed) → Move ends w { w with index }
  /-- A result was made that no entry waits for. -/
  | stamp (w : Workspace Memory) : Move ends w { w with made := w.made + 1 }
  | outside (w : Workspace Memory) (outside : Memory) : Move ends w { w with outside }

abbrev Moves (ends : Serial → Prop) : Workspace Memory → Workspace Memory → Prop :=
  Relation.ReflTransGen (Move ends)

/-- The result `r` arrives at the entry with serial `s` between `w` and `w'`. -/
def Lands (s : Serial) (r : Resolution) (w w' : Workspace Memory) : Prop :=
  ∃ w₁, Moves (· ≠ s) w w₁ ∧ r.stamp = w₁.made ∧ Moves (fun _ => True) (w₁.arrive s r) w'

/-- Moves lead to `w` from a fresh workspace. Resolutions may be running in `w`. -/
def Workspace.Reachable (w : Workspace Memory) : Prop := ∃ m, Moves (fun _ => True) (.fresh m) w

theorem Move.mono {ends ends' : Serial → Prop} (he : ∀ s, ends s → ends' s)
    {w w' : Workspace Memory} (h : Move ends w w') : Move ends' w w' := by
  cases h with
  | ask hid h => exact .ask hid h
  | arrive hs hr => exact .arrive (he _ hs) hr
  | abandon hs => exact .abandon (he _ hs)
  | invalidate l => exact .invalidate _ l
  | index h => exact .index _ h
  | stamp => exact .stamp _
  | outside m => exact .outside _ m

theorem Moves.mono {ends ends' : Serial → Prop} (he : ∀ s, ends s → ends' s)
    {w w' : Workspace Memory} (h : Moves ends w w') : Moves ends' w w' :=
  Relation.ReflTransGen.mono (fun _ _ => Move.mono he) _ _ h

/-- What every move keeps is kept by moves. -/
theorem Moves.keeps {ends : Serial → Prop} {P : Workspace Memory → Prop} {w w' : Workspace Memory}
    (h : Moves ends w w') (hstep : ∀ w w', Move ends w w' → P w → P w') (hw : P w) : P w' := by
  induction h with
  | refl => exact hw
  | tail _ hm ih => exact hstep _ _ hm ih

theorem Moves.invalidates {ends : Serial → Prop} (xs : List Location) (w : Workspace Memory) :
    Moves ends w { w with cache := xs.foldl Cache.invalidate w.cache } := by
  induction xs generalizing w with
  | nil => exact .refl
  | cons x xs ih => exact .head (.invalidate w x) (ih { w with cache := w.cache.invalidate x })

/-- Whatever a workspace is told is a sequence of moves. -/
theorem Changes.moves {ends : Serial → Prop} {xs : List Location} {w w' : Workspace Memory}
    (h : Changes xs w w') (hw : w.Tidy) : Moves ends w w' := by
  have hcache : Moves ends w _ := Moves.invalidates xs w
  rw [← h.cache] at hcache
  obtain ⟨cache, index, made, outside⟩ := w'
  obtain rfl := h.made
  exact (hcache.tail (.index _ (h.known hw.known))).tail (.outside _ outside)

/-! ## What every move keeps -/

/-- Tidy, and every result in an entry is older than the next one that is made. -/
structure Workspace.Dated (w : Workspace Memory) : Prop where
  tidy : w.Tidy
  older : ∀ (s : Serial) e r, w.cache.entries[s]? = some e → e.state = .done r → r.stamp < w.made

theorem Workspace.Dated.fresh (m : Memory) : (Workspace.fresh m).Dated where
  tidy := .fresh m
  older s e r h := by simp [Workspace.fresh, Cache.empty] at h

section

variable {ends : Serial → Prop} {w w' : Workspace Memory} {s : Serial} {id : Identity}

/-- Asking for a file changes nothing, or claims the entry for it. -/
theorem request_claims (hid : id.WellFormed) (hw : w.Tidy) {answer : Request Resolution}
    (h : Act.request id w = .ok answer w') :
    w' = w ∨ ∃ s c, w' = { w with cache := c } ∧ w.cache.Claims 0 id.location s id c := by
  rcases request_cases hid hw with ⟨r, hr, -⟩ | ⟨hr, -⟩ | ⟨s, c, hr, hc⟩
  · cases hr.symm.trans h
    exact Or.inl rfl
  · cases hr.symm.trans h
    exact Or.inl rfl
  · cases hr.symm.trans h
    exact Or.inr ⟨s, c, rfl, hc⟩

theorem Move.tidy (h : Move ends w w') (hw : w.Tidy) : w'.Tidy := by
  cases h with
  | ask hid h =>
      rcases request_claims hid hw h with rfl | ⟨s, c, rfl, hc⟩
      · exact hw
      · exact hw.claim hid hc
  | @arrive s r _ _ => exact hw.arrive s r
  | @abandon s _ => exact hw.abandon s
  | invalidate l => exact hw.invalidate l
  | index h => exact ⟨hw.lone, hw.owned, hw.entries, h⟩
  | stamp => exact ⟨hw.lone, hw.owned, hw.entries, hw.known⟩
  | outside m => exact hw.outside m

theorem Move.made (h : Move ends w w') (hw : w.Tidy) : w.made ≤ w'.made := by
  cases h with
  | ask hid h =>
      rcases request_claims hid hw h with rfl | ⟨s, c, rfl, hc⟩
      · exact Nat.le_refl _
      · exact Nat.le_refl _
  | arrive _ _ => exact Nat.le_succ _
  | stamp => exact Nat.le_succ _
  | _ => exact Nat.le_refl _

/-! ### One entry -/

/-- What a move may make of an entry that it may end if `ends` holds. The next result has the stamp
`made` before the move and `made'` after it. -/
inductive Turns (ends : Prop) (made made' : Nat) : Entry Resolution → Entry Resolution → Prop where
  | same (e : Entry Resolution) : Turns ends made made' e e
  | claimed (id : Identity) :
      Turns ends made made' ⟨id, true, .uncomputed⟩ ⟨id, true, .inProgress 0 []⟩
  | arrived {r : Resolution} (e : Entry Resolution) :
      ends → r.stamp = made → made < made' →
      Turns ends made made' e { e with state := Cache.handedIn Resolution.derivedFrom r e.state }
  | abandoned (e : Entry Resolution) :
      ends → Turns ends made made' e { e with state := .uncomputed }
  | lost (l : Location) (e : Entry Resolution) : Turns ends made made' e (Cache.lose l e)

/-- What becomes of the entry with serial `s`: it turns into another, or the move made it. -/
def TurnsAt (ends : Serial → Prop) (s : Serial) (w w' : Workspace Memory) : Prop :=
  (w.cache.entries[s]? = none ∧ ∀ e', w'.cache.entries[s]? = some e' →
    ∃ id, e' = ⟨id, true, .inProgress 0 []⟩) ∨
    ∃ e e', w.cache.entries[s]? = some e ∧ w'.cache.entries[s]? = some e' ∧
      Turns (ends s) w.made w'.made e e'

theorem TurnsAt.of_map {f : Entry Resolution → Entry Resolution}
    (h : w'.cache.entries[s]? = (w.cache.entries[s]?).map f)
    (hf : ∀ e, w.cache.entries[s]? = some e → Turns (ends s) w.made w'.made e (f e)) :
    TurnsAt ends s w w' := by
  cases he : w.cache.entries[s]? with
  | none =>
      rw [he] at h
      exact Or.inl ⟨he, fun e' he' => by cases h.symm.trans he'⟩
  | some e =>
      rw [he] at h
      exact Or.inr ⟨e, f e, he, h, hf e he⟩

theorem TurnsAt.of_eq (h : w'.cache.entries[s]? = w.cache.entries[s]?) : TurnsAt ends s w w' :=
  .of_map (by simpa using h) fun e _ => .same e

theorem Move.turns (h : Move ends w w') (hw : w.Tidy) (s : Serial) : TurnsAt ends s w w' := by
  cases h with
  | @ask _ id _ hid h =>
      rcases request_claims hid hw h with rfl | ⟨t, c, rfl, hc⟩
      · exact .of_eq rfl
      · by_cases hs : s = t
        · subst hs
          rcases hc.before with hb | ⟨hb, -⟩
          · exact Or.inr ⟨_, _, hb, hc.entry, .claimed _⟩
          · exact Or.inl ⟨hb, fun e' he' => ⟨id, Option.some.inj (he'.symm.trans hc.entry)⟩⟩
        · exact .of_eq (hc.others s hs)
  | @arrive t r ht hr =>
      by_cases hs : s = t
      · subst hs
        exact .of_map (Cache.getElem?_finish w.cache s r Resolution.derivedFrom)
          fun e _ => .arrived e ht hr (Nat.lt_succ_self _)
      · exact .of_eq (Cache.getElem?_finish_ne w.cache r Resolution.derivedFrom hs)
  | @abandon t ht =>
      by_cases hs : s = t
      · subst hs
        exact .of_map (Cache.getElem?_setState_eq w.cache s .uncomputed) fun e _ => .abandoned e ht
      · exact .of_eq (Cache.getElem?_setState_ne w.cache .uncomputed (Ne.symm hs))
  | invalidate l => exact .of_map (Cache.getElem?_invalidate w.cache l s) fun e _ => .lost l e
  | _ => exact .of_eq rfl

/-! ### Results -/

theorem Move.dated (h : Move ends w w') (hw : w.Dated) : w'.Dated where
  tidy := h.tidy hw.tidy
  older s e' r he' hr := by
    rcases h.turns hw.tidy s with ⟨-, hnew⟩ | ⟨e, e'', he, he'', hturns⟩
    · obtain ⟨id, rfl⟩ := hnew e' he'
      cases hr
    · obtain rfl := Option.some.inj (he''.symm.trans he')
      have hmade := h.made hw.tidy
      cases hturns with
      | same => exact Nat.lt_of_lt_of_le (hw.older s e r he hr) hmade
      | claimed id => cases hr
      | @arrived q _ _ hq hlt =>
          rcases Cache.handedIn_cases Resolution.derivedFrom q e.state with hd | hd
          · obtain rfl : q = r := by simpa using hd.symm.trans hr
            exact hq ▸ hlt
          · cases hd.symm.trans hr
      | abandoned => cases hr
      | lost l => exact Nat.lt_of_lt_of_le (hw.older s e r he (Cache.lose_done.mp hr)) hmade

theorem Moves.dated (h : Moves ends w w') (hw : w.Dated) : w'.Dated :=
  h.keeps (fun _ _ hm hw => hm.dated hw) hw

theorem Workspace.Reachable.dated (h : w.Reachable) : w.Dated := by
  obtain ⟨m, h⟩ := h
  exact h.dated (.fresh m)

/-- What is in progress and may not end stays in progress. -/
theorem Move.inFlight (h : Move ends w w') (hw : w.Tidy) (hs : ¬ ends s) (hf : w.InFlight s id) :
    w'.InFlight s id := by
  obtain ⟨e, owner, marks, he, hid, hst⟩ := hf
  rcases h.turns hw s with ⟨hn, -⟩ | ⟨f, e', hf, he', hturns⟩
  · cases hn.symm.trans he
  · obtain rfl := Option.some.inj (he.symm.trans hf)
    cases hturns with
    | same => exact ⟨e, owner, marks, he', hid, hst⟩
    | claimed _ => cases hst
    | arrived _ ht => exact absurd ht hs
    | abandoned _ ht => exact absurd ht hs
    | lost l =>
        have hlost := Cache.lose_inProgress (l := l) hst
        refine ⟨_, owner, if (Cache.lose l e).listed then marks ++ [l] else marks, he', ?_, ?_⟩
        · rw [Cache.lose_id, hid]
        · rw [hlost]
          split <;> rfl

theorem Moves.inFlight (h : Moves ends w w') (hw : w.Dated) (hs : ¬ ends s) (hf : w.InFlight s id) :
    w'.InFlight s id :=
  (h.keeps (P := fun w => w.Dated ∧ w.InFlight s id)
    (fun _ _ hm hw => ⟨hm.dated hw.1, hm.inFlight hw.1.tidy hs hw.2⟩) ⟨hw, hf⟩).2

end

end FSharpWorkspace
