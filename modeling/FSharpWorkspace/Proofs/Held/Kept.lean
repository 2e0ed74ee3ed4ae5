import FSharpWorkspace.Proofs.Held.Flight
/-!
# A result that is kept holds results that are kept

A result is kept when it arrives if its search meets nothing that depends on a file that was
invalidated meanwhile (`Unaffected`). The search enters one result for each file, so it may pass by
an instance that was made from something invalidated, if another instance for the same file is
entered in its place. `Unaffected.held` says that nothing is missed: then all references of the
result are in the map.

The reason is that both instances declare the same references. If the one that is entered lacks a
reference, it was refused to a file further out. Where the entered instance is not in the map, that
file is on the trail to it, so it was entered. Where it is in the map, the file is on the way by
which the instance was made; the first file on this way that is not entered was refused to an
instance with a later stamp, and stamps are bounded (`Unaffected.closed_at`).
-/

set_option autoImplicit false

namespace FSharpWorkspace

open Resolution (Trail Entered Closed enter)

/-- The result that arrives is kept: its file is not among the invalidated ones, and it derives
from none of them. -/
structure Unaffected (E : List Location) (w : Workspace Memory) (s : Serial) (c : Cache Resolution)
    (w₁ : Workspace Memory) (r : Resolution) : Prop extends Arrives E w s c w₁ r where
  avoids : r.id.location ∉ E
  fresh : Cache.isStale Resolution.derivedFrom r E = false

/-- With nothing invalidated on the way, every result is kept. -/
theorem Arrives.kept {w w₁ : Workspace Memory} {s : Serial} {c : Cache Resolution} {r : Resolution}
    (h : Arrives [] w s c w₁ r) : Unaffected [] w s c w₁ r :=
  { h with avoids := by simp, fresh := rfl }

namespace Unaffected

variable {E : List Location} {w w₁ : Workspace Memory} {s : Serial} {c : Cache Resolution}
  {r : Resolution}

/-! ## What the search enters -/

/-- Nothing that the search enters depends on an invalidated file. -/
theorem independent (h : Unaffected E w s c w₁ r) {q : Resolution} (hq : q ∈ enter r [])
    {m : Location} (hm : m ∈ E) : q.dependsOn m = false := by
  by_contra hd
  have hder := (r.derivedFrom_iff m).mpr ⟨q, hq, by simpa using hd⟩
  have hs : Cache.isStale Resolution.derivedFrom r E = true := List.any_eq_true.mpr ⟨m, hm, hder⟩
  rw [h.fresh] at hs
  cases hs

theorem self_entered (_ : Unaffected E w s c w₁ r) : r ∈ enter r [] := by
  rw [Resolution.enter_of_not_entered (by simp [Entered])]
  exact Resolution.subset_enterAll _ _ r (by simp)

theorem closed (_ : Unaffected E w s c w₁ r) {q : Resolution} (hq : q ∈ enter r []) :
    Closed (enter r []) q := by
  rcases Resolution.enter_closed r [] q hq with hq | hq
  · cases hq
  · exact hq

theorem trail_of_entered (h : Unaffected E w s c w₁ r) {q : Resolution} (hq : q ∈ enter r []) :
    q = r ∨ ∃ path, Trail E r.references path q ∧ ∀ x ∈ path, Entered (enter r []) x := by
  rcases Resolution.enter_trail r h.grounded h.avoids [] (fun q hq m hm => h.independent hq hm) q hq
    with hq | hq
  · cases hq
  · exact hq

theorem avoids_of_entered (h : Unaffected E w s c w₁ r) {l : Location}
    (hl : Entered (enter r []) l) :
    l ∉ E := by
  obtain ⟨q, hq, rfl⟩ := hl
  rcases h.trail_of_entered hq with rfl | ⟨path, ht, -⟩
  · exact h.avoids
  · exact ht.avoids

/-! ## Two instances for one file -/

/-- The result `p` is held along a trail that avoids `E`, and the search
entered `q` for its file. -/
structure Twins (E : List Location) (r p q : Resolution) : Prop where
  held : ∃ path, Trail E r.references path p
  entered : q ∈ enter r []
  place : q.id.location = p.id.location

variable {p q : Resolution}

/-- The result for the file of a held one is held too, along files that were entered. -/
theorem trail_of_twins (h : Unaffected E w s c w₁ r) (ht : Twins E r p q) :
    ∃ path, Trail E r.references path q ∧ ∀ x ∈ path, Entered (enter r []) x := by
  rcases h.trail_of_entered ht.entered with rfl | hq
  · -- the file of `r` itself is in progress, so no result for it comes back
    obtain ⟨path, hp⟩ := ht.held
    exact absurd (ht.place ▸ h.claim.busy) (h.flight.trail path p hp).idle
  · exact hq

/-- Twins were made from the same report. -/
theorem same_report (h : Unaffected E w s c w₁ r) (ht : Twins E r p q) :
    p.declared = q.declared ∧ ∀ m, p.dependsOn m = q.dependsOn m := by
  obtain ⟨path, hp⟩ := ht.held
  obtain ⟨path', hq, -⟩ := h.trail_of_twins ht
  have dp := h.flight.trail path p hp
  have dq := h.flight.trail path' q hq
  have hid : p.id = q.id := dp.wellFormed.eq dq.wellFormed ht.place.symm
  obtain ⟨o, mp⟩ := dp.reported.made (hp.grounded h.grounded).2
  obtain ⟨o', mq⟩ := dq.reported.made (hq.grounded h.grounded).2
  rw [ht.place] at mq
  refine ⟨?_, fun m => mp.dependsOn_eq mq hid m⟩
  rw [mp.declared, mq.declared, hid]

/-- A reference of a result whose file is entered avoids `E`, and is idle. -/
theorem held_avoids (h : Unaffected E w s c w₁ r) (ht : Twins E r p q) {o : Option Location}
    {p' : Resolution} (hp' : (o, p') ∈ p.references) :
    ∃ path, Trail E r.references path p' ∧ ¬ c.Busy p'.id.location := by
  obtain ⟨path, hp⟩ := ht.held
  have hd : ∀ m ∈ E, p.dependsOn m = false := by
    intro m hm
    rw [(h.same_report ht).2]
    exact h.independent ht.entered hm
  have hE := (hp.grounded h.grounded).1.avoids hp.avoids hd hp'
  exact ⟨_, hp.snoc hp' hE, (h.flight.trail _ p' (hp.snoc hp' hE)).idle⟩

/-- A reference of a result is entered, or the twin lacks it. -/
theorem entered_or_cuts (h : Unaffected E w s c w₁ r) (ht : Twins E r p q) {o : Option Location}
    {p' : Resolution} (hp' : (o, p') ∈ p.references) :
    Entered (enter r []) p'.id.location ∨ q.Cuts p'.id.location := by
  -- the twin declares what `p` declares, so it holds a result for the file or was refused one
  by_cases hx : ∃ o' q', (o', q') ∈ q.references ∧ q'.id.location = p'.id.location
  · obtain ⟨o', q', hq', hl⟩ := hx
    exact Or.inl (hl ▸ h.closed ht.entered o' q' hq')
  · obtain ⟨path, hp⟩ := ht.held
    have hdecl := ((hp.grounded h.grounded).1.mayHold hp').declared
    rw [(h.same_report ht).1] at hdecl
    exact Or.inr ⟨⟨p'.id, hdecl, rfl⟩, fun o' q' hq' hl => hx ⟨o', q', hq', hl⟩⟩

/-- What explains a missing reference of an entered result is entered, if it is idle. -/
theorem entered_of_explained (hq : q ∈ enter r []) {path : List Location}
    (hpath : ∀ x ∈ path, Entered (enter r []) x) {w₀ : Workspace Memory} (hex : q.Explained w₀ path)
    {x : Location} (hx : q.Cuts x) (hidle : ¬ w₀.cache.Busy x) : Entered (enter r []) x := by
  rcases hex x hx with hp | rfl | hb
  · exact hpath x hp
  · exact ⟨q, hq, rfl⟩
  · exact absurd hb hidle

/-- The references of a result are entered, unless the twin is in the map. -/
theorem closed_or_cached (h : Unaffected E w s c w₁ r) (ht : Twins E r p q) :
    Closed (enter r []) p ∨ w₁.cache.peek q.id.location = some q := by
  obtain ⟨path, hq, hpath⟩ := h.trail_of_twins ht
  rcases (h.flight.trail path q hq).kept with hk | ⟨-, hex⟩
  · exact Or.inr hk
  · refine Or.inl fun o p' hp' => ?_
    obtain ⟨-, -, hidle⟩ := h.held_avoids ht hp'
    rcases h.entered_or_cuts ht hp' with he | hc
    · exact he
    · exact entered_of_explained ht.entered hpath hex hc hidle

/-! ## Everything held is entered -/

/-- A way through held results, along which the references are entered, stays
among entered files. -/
theorem walk (h : Unaffected E w s c w₁ r) {roots : List (Option Location × Resolution)}
    {path : List Location} (ht : Trail [] roots path q) (hroots : ∀ o p, (o, p) ∈ roots →
      Entered (enter r []) p.id.location ∧ ∃ path, Trail E r.references path p)
    (hclosed : ∀ p path, Trail E r.references path p → Entered (enter r []) p.id.location →
      q.stamp < p.stamp → Closed (enter r []) p) :
    (∀ x ∈ path, Entered (enter r []) x) ∧ Entered (enter r []) q.id.location ∧
      ∃ path, Trail E r.references path q := by
  -- from root to root: those of the next stretch are the references of the one that was reached
  induction ht with
  | root hmem _ =>
      obtain ⟨he, ht⟩ := hroots _ _ hmem
      exact ⟨by simp, he, ht⟩
  | @under roots o p q path hmem _ ht ih =>
      obtain ⟨he, path₀, hp⟩ := hroots o p hmem
      have hlt := ht.stamp_lt (hp.grounded h.grounded).1
      have hnext := ih (fun o' p' hp' => ?_) hclosed
      · obtain ⟨hpath, hrest⟩ := hnext
        refine ⟨fun x hx => ?_, hrest⟩
        rcases List.mem_cons.mp hx with rfl | hx
        · exact he
        · exact hpath x hx
      · have he' := hclosed p path₀ hp he hlt o' p' hp'
        exact ⟨he', _, hp.snoc hp' (h.avoids_of_entered he')⟩

theorem roots_entered (h : Unaffected E w s c w₁ r) {o : Option Location} {p : Resolution}
    (hp : (o, p) ∈ r.references) :
    Entered (enter r []) p.id.location ∧ ∃ path, Trail E r.references path p := by
  have he := h.closed h.self_entered o p hp
  exact ⟨he, [], .root hp (h.avoids_of_entered he)⟩

/-- If a file is entered then the references of every result for it are entered. The induction is on
the stamp of the entered one, from the latest down. -/
theorem closed_at (h : Unaffected E w s c w₁ r) (ht : Twins E r p q) : Closed (enter r []) p := by
  induction hn : w₁.made - q.stamp using Nat.strong_induction_on generalizing p q with
  | h n ih =>
      subst hn
      obtain ⟨path, hq, -⟩ := h.trail_of_twins ht
      have dq := h.flight.trail path q hq
      rcases h.closed_or_cached ht with hc | hk
      · exact hc
      intro o p' hp'
      rcases h.entered_or_cuts ht hp' with he | hcut
      · exact he
      obtain ⟨-, -, hidle⟩ := h.held_avoids ht hp'
      -- the entered instance was made in this flight, as otherwise it would be the only one
      have hnew : w.made ≤ q.stamp := by
        rcases dq.origin with ⟨-, hold⟩ | ⟨hnew, -⟩
        · obtain ⟨path', hp⟩ := ht.held
          rw [ht.place] at hold
          rcases (h.flight.trail path' p hp).origin with ⟨-, hp₀⟩ | ⟨-, hnone⟩
          · cases hold.symm.trans hp₀
            exact absurd rfl (hcut.2 o p' hp')
          · cases hold.symm.trans hnone
        · exact hnew
      obtain ⟨way, hway, hex⟩ := h.flight.cached _ q hk hnew
      have hwalk := h.walk hway (fun o p hp => h.roots_entered hp) fun ρ path' hρ he hlt => by
        obtain ⟨t, hmem, hl⟩ := he
        have htw : Twins E r ρ t := ⟨⟨path', hρ⟩, hmem, hl⟩
        rcases h.closed_or_cached htw with hc | ht'
        · exact hc
        · -- the entered one is at least as new as `ρ`, hence newer than `q`
          rw [hl] at ht'
          have hle := (h.flight.trail path' ρ hρ).newest t ht'
          obtain ⟨path'', ht'', -⟩ := h.trail_of_twins htw
          have hmade := (h.flight.trail path'' t ht'').stamp
          exact ih _ (by omega) htw rfl
      exact entered_of_explained ht.entered hwalk.1 hex hcut hidle

/-- A result that is kept holds results that are in the map. -/
theorem held (h : Unaffected E w s c w₁ r) {o : Option Location} {p : Resolution}
    (hp : (o, p) ∈ r.references) : w₁.cache.peek p.id.location = some p := by
  obtain ⟨he, path, ht⟩ := h.roots_entered hp
  rcases (h.flight.trail path p ht).kept with hk | ⟨⟨m, hm, hder⟩, -⟩
  · exact hk
  · -- otherwise something that `p` holds depends on an invalidated file, and so does what
    -- is entered for it
    exfalso
    obtain ⟨q, hd, hq⟩ := Resolution.trail_of_derivedFrom (h.grounded.held hp) hder
    have hreach : Entered (enter r []) q.id.location ∧ ∃ path, Trail E r.references path q := by
      rcases hq with rfl | ⟨way, hway⟩
      · exact ⟨he, path, ht⟩
      · refine (h.walk (.under hp (by simp) hway) (fun o p hp => h.roots_entered hp) ?_).2
        rintro ρ path' hρ ⟨t, hmem, hl⟩ -
        exact h.closed_at ⟨⟨path', hρ⟩, hmem, hl⟩
    obtain ⟨⟨t, hmem, hl⟩, hheld⟩ := hreach
    have hsame := (h.same_report ⟨hheld, hmem, hl⟩).2 m
    rw [hd, h.independent hmem hm] at hsame
    cases hsame

end Unaffected

/-- A workspace stays sound when a result arrives. -/
theorem Arrives.sound {E : List Location} {w w₁ : Workspace Memory} {s : Serial}
    {c : Cache Resolution} {r : Resolution} (h : Arrives E w s c w₁ r) (hw₁ : w₁.Sound []) :
    (w₁.arrive s r).Sound [] where
  tidy := hw₁.tidy.arrive s r
  keeps l u hp := by
    rcases h.peek_cases hw₁ hp with hp | ⟨rfl, rfl, hE, hs⟩
    · have hk := hw₁.keeps l u hp
      exact ⟨hk.place, hk.wellFormed, Nat.lt_succ_of_lt hk.stamp, hk.grounded,
        fun o p ho => h.peek_of_peek hw₁ (hk.held o p ho), hk.reported⟩
    · have hu : Unaffected E w s c w₁ u := { h with avoids := hE, fresh := hs }
      refine ⟨rfl, h.wellFormed, ?_, h.grounded, fun o p ho => h.peek_of_peek hw₁ (hu.held ho),
        fun _ => h.reported hE⟩
      rw [h.stamp]
      exact Nat.lt_succ_self _

end FSharpWorkspace
