import FSharpWorkspace.Proofs.Sequential.Visible
/-!
# Circles that are told of are genuine

A circle is the end of a path of projects in progress, none of which is on the path twice
(`circle_nodup`). References pass it on as it is, from one result to the next. So no circle that a
result remembers has a repetition (`Workspace.Unrepeated`), neither while nothing changes
(`unrepeatedRule`) nor after any run (`Reached.unrepeated`).

Together with what is traced of circles over edits (`Workspace.Faithful`), this makes every circle
that a project is told of a closed walk along references of the table as it is now
(`cycle_genuine`).
-/

set_option autoImplicit false

namespace FSharpWorkspace

open Relation (TransGen)

/-! ## Walks -/

/-- The walk around a circle: its members, and the first of them again. -/
def closedWalk (members : List Identity) : List Identity := members ++ members.head?.toList

/-- A circle is spelled as the walk around it. -/
theorem circleText_eq (members : List Identity) :
    circleText members = " -> ".intercalate ((closedWalk members).map (·.text)) := by
  have hspell : ∀ (ids : List Identity) (last : String),
      String.join (ids.map (·.text ++ " -> ")) ++ last =
        " -> ".intercalate (ids.map (·.text) ++ [last]) := by
    intro ids last
    induction ids with
    | nil => simp
    | cons id ids ih =>
        rw [List.map_cons, List.map_cons, List.cons_append,
          String.intercalate_cons_of_ne_nil (by simp), ← ih]
        simp [String.append_assoc]
  cases members with
  | nil => rfl
  | cons first rest =>
      unfold circleText closedWalk
      rw [List.map_append]
      exact hspell (first :: rest) first.text

/-- Each member of a ring leads to the next one along the walk around it. -/
theorem Ring.isChain_closedWalk {R : Location → Location → Prop} {members : List Identity}
    (h : Ring R (places members)) : (places (closedWalk members)).IsChain R := by
  unfold closedWalk places
  rw [List.map_append, List.isChain_append]
  refine ⟨h.chain, ?_, fun x hx y hy => h.closing x hx y ?_⟩
  · cases members <;> simp
  · cases members with
    | nil => cases hy
    | cons first rest => simpa [places] using hy

/-- A circle that is closed on a path without repetitions has none. -/
theorem circle_nodup {path : List Identity} {closing : Identity} (h : (places path).Nodup)
    (hc : closing.location ∈ places path) : (places (circle path closing)).Nodup := by
  rw [circle_eq hc]
  exact h.sublist ((List.dropWhile_suffix _).sublist.map _)

/-! ## One resolution -/

/-- The projects on `path` are in progress, each of them once, and no circle that a result
remembers has a repetition. -/
structure Workspace.Unrepeated (path : List Identity) (w : Workspace Memory) : Prop where
  busy : ∀ x, w.cache.Busy x ↔ x ∈ places path
  nodup : (places path).Nodup
  cycles : ∀ l r, w.cache.peek l = some r → (places r.cycle).Nodup

section

variable {path : List Identity} {w w' : Workspace Memory} {id : Identity} {s : Serial}
  {c : Cache Resolution} {r : Resolution}

theorem Workspace.Unrepeated.congr (hw : w.Unrepeated path)
    (hc : w'.cache = w.cache) : w'.Unrepeated path := by
  refine ⟨?_, hw.nodup, ?_⟩
  · rw [hc]
    exact hw.busy
  · rw [hc]
    exact hw.cycles

theorem Workspace.Unrepeated.claim (hw : w.Unrepeated path) (hl : w.cache.Lone)
    (hc : w.cache.Claims 0 id.location s id c) :
    Workspace.Unrepeated (path ++ [id]) { w with cache := c } where
  busy x := by
    rw [mem_places_concat, ← hw.busy x]
    exact hc.busy_iff x
  nodup := nodup_places_concat hw.nodup fun hm => hc.not_busy hl ((hw.busy _).mpr hm)
  cycles l u hu := hw.cycles l u ((hc.peek hl l).symm.trans hu)

/-- A project that arrives leaves the path. -/
theorem Workspace.Unrepeated.arrive (hw : w.Unrepeated path) (hsound : w.Sound [])
    (hw' : w'.Unrepeated (path ++ [r.id])) (hsound' : w'.Sound []) (h : Arrives [] w s c w' r)
    (hr : (places r.cycle).Nodup) : (w'.arrive s r).Unrepeated path where
  busy x := ((h.fetched rfl hsound hsound').flight.elapsed.busy_iff x).trans (hw.busy x)
  nodup := hw.nodup
  cycles l u hu := by
    rcases h.peek_cases hsound' hu with hp | ⟨-, rfl, -⟩
    · exact hw'.cycles l u hp
    · exact hr

/-- A project remembers a circle without repetitions, if its references tell of such ones only. -/
theorem CrackReport.Made.cycle_nodup {report : CrackReport} {outcomes : Outcomes}
    (h : report.Made outcomes r) (ho : ∀ o ∈ outcomes, (places (Answer.members o.2)).Nodup) :
    (places r.cycle).Nodup := by
  by_cases hc : r.cycle = []
  · rw [hc]
    exact List.nodup_nil
  · generalize hm : r.cycle = members at *
    have htells := hm ▸ h.tells (hm ▸ hc)
    cases htells with
    | refused hmem => exact ho _ hmem
    | named hmem _ => exact ho _ hmem

theorem unrepeatedRule : ResolveRule (· = [])
    (fun E _ path w a w' => E = [] ∧
      (w.Unrepeated path → w'.Unrepeated path ∧ (places (Answer.members a)).Nodup))
    (fun E _ path _ w outcomes w' => E = [] ∧
      (w.Unrepeated path → w'.Unrepeated path ∧
        ∀ o ∈ outcomes, (places (Answer.members o.2)).Nodup)) where
  ready _ _ hp := ⟨rfl, fun hs => ⟨hs, hs.cycles _ _ hp⟩⟩
  refused _ _ hb := ⟨rfl, fun hs => ⟨hs, circle_nodup hs.nodup ((hs.busy _).mp hb)⟩⟩
  leaf := by
    intro id path w s c r hw hid _ harr hr
    obtain rfl := hr.id
    refine ⟨rfl, fun hs => ?_⟩
    have hcycle : (places r.cycle).Nodup := by
      rw [hr.cycle]
      exact List.nodup_nil
    have hs₁ := hs.claim hw.tidy.lone harr.claim
    exact ⟨hs.arrive hw hs₁ (hw.claim hid harr.claim) harr hcycle, hcycle⟩
  project := by
    intro E xs ys id path w w₁ w₂ s c report outcomes r hw hid hk hxs hys hx hf hq harr hmade hrid
    subst hxs hys hrid
    obtain ⟨rfl, hq⟩ := hq
    refine ⟨rfl, fun hs => ?_⟩
    have hs₁ := (hs.claim hw.tidy.lone harr.claim).congr hx.cache_eq
    obtain ⟨hs₂, ho⟩ := hq hs₁
    have hcycle := hmade.cycle_nodup ho
    exact ⟨hs.arrive hw hs₂ hf.sound harr hcycle, hcycle⟩
  nil _ := ⟨rfl, fun hs => ⟨hs, by simp⟩⟩
  cons := by
    intro E E' id path dep deps w w₁ w' a outcomes hw _ _ _ hP _ hQ
    obtain ⟨rfl, hP⟩ := hP
    obtain ⟨rfl, hQ⟩ := hQ
    refine ⟨rfl, fun hs => ?_⟩
    obtain ⟨hs₁, ha⟩ := hP hs
    obtain ⟨hs', ho⟩ := hQ hs₁
    refine ⟨hs', fun o hmem => ?_⟩
    rcases List.mem_cons.mp hmem with rfl | hmem
    · exact ha
    · exact ho o hmem

end

/-! ## Runs -/

section

variable {w w' : Workspace Memory}

theorem Fetches.unrepeated (h : Fetches Memory.surroundings w w') (hw : w.Sound [])
    (hs : w.Unrepeated []) :
    w'.Unrepeated [] := by
  induction h with
  | refl => exact hs
  | cons hid hstep _ ih =>
      obtain ⟨E, hf, -, hkeeps⟩ := hstep.brings surroundings_cracksWithin unrepeatedRule hid hw
      exact ih hf.sound (hkeeps hs).1

/-- Between operations nothing is in progress, and no circle in the map has a repetition. -/
theorem Reached.unrepeated {pending : List Location}
    (h : ReachedFreely Memory.surroundings w pending) :
    w.Unrepeated [] := by
  induction h with
  | fresh m =>
      refine ⟨(Workspace.Idle.fresh m).busy_iff, List.nodup_nil, fun l r hr => ?_⟩
      simp at hr
  | query q h hq _ ih =>
      exact (q.fetches surroundings_mild (h.idle surroundings_mild) hq).unrepeated
        (h.sound surroundings_mild) ih
  | change c h hc _ ih =>
      have hlone := (h.sound surroundings_mild).tidy.lone
      obtain ⟨xs, hx, -⟩ := c.run_changes surroundings_mild.rooted hlone hc
      have hidle := (h.idle surroundings_mild).idle.elapsed hx.elapsed
      -- a change takes results away, and brings none
      exact ⟨hidle.busy_iff, List.nodup_nil,
        fun l r hr => ih.cycles l r ((hx.peek hlone l r).mp hr).1⟩
  | edit _ _ _ _ ih => exact ih.congr rfl
  | write _ _ _ ih => exact ih.congr rfl
  | remove _ _ ih => exact ih.congr rfl

/-! ## What is told -/

/-- A project that remembers a circle says so once, and nothing else. -/
theorem Resolution.Reported.diagnostics_eq {m : Memory} {r : Resolution} (h : r.Reported m)
    (hc : r.cycle ≠ []) :
    r.diagnostics = [circleDiagnostic r.id r.cycle] := by
  by_cases hk : r.id.kind = .project
  · obtain ⟨outcomes, hmade⟩ := h.made hk
    have hcycle := hmade.cycle
    have hresult := hmade.result
    cases he : (m.report r.id.location).error with
    | some error =>
        -- a failing project has no references that could tell of a circle
        rw [hmade.outcomes_nil he] at hcycle
        exact absurd hcycle hc
    | none =>
        rw [CrackReport.result, he] at hresult
        rw [hcycle] at hc
        rw [hcycle, hresult]
        simp [hc]
  · unfold Resolution.Reported at h
    rw [if_neg hk] at h
    exact absurd h.cycle hc

end

/-- **Circles that are told of are genuine.** After any run in which nothing is asked while an
edit of the table was not told, a project that remembers a circle is on it, the circle has no
repetition, and the walk around it follows references that the table has now. The project
carries one diagnostic, which spells this walk. A project that is on no circle of references
carries no such diagnostic. -/
theorem cycle_genuine {w : Workspace Memory} (h : ReachedFreely Memory.surroundings w [])
    {l : Location} {r : Resolution} (hr : w.cache.peek l = some r) :
    (r.isCyclic = true →
      (places r.cycle).Nodup ∧ l ∈ places r.cycle ∧
        (places (closedWalk r.cycle)).IsChain w.outside.Links ∧
        r.diagnostics = [⟨.cyclicReference, l.path,
          "Cyclic project reference: " ++
            " -> ".intercalate ((closedWalk r.cycle).map (·.text))⟩]) ∧
    (¬ TransGen w.outside.Links l l → ∀ d ∈ r.diagnostics, d.kind ≠ .cyclicReference) := by
  have hkeeps := h.faithful.sound.keeps l r hr
  have hreported := hkeeps.reported (by simp)
  constructor
  · intro hcyclic
    have hc : r.cycle ≠ [] := by simpa [Resolution.isCyclic] using hcyclic
    have henc := h.faithful.traced.encircled h.faithful.sound hr hc fun _ _ => trivial
    refine ⟨h.unrepeated.cycles l r hr, henc.mem, henc.ring.isChain_closedWalk, ?_⟩
    rw [hreported.diagnostics_eq hc, circleDiagnostic, circleText_eq, hkeeps.place]
  · intro hcircle d hd hk
    have hmarked : r.IsMarked := ⟨d, hd, hk⟩
    exact hreported.isMarked_iff.mp hmarked (h.faithful.cycle_eq_nil hr hcircle)

/-- The workspace after `a.fsproj` was asked for, which references `c.fsproj` through `b.fsproj`. -/
def askedBeforeClosing : Workspace Memory :=
  ((Query.options ⟨"a.fsproj"⟩).run Memory.surroundings).after
    (.fresh (.listing [("a.fsproj", ["b.fsproj"]), ("b.fsproj", ["c.fsproj"]), ("c.fsproj", []),
      ("d.fsproj", ["a.fsproj"])]))

/-- The workspace after `c.fsproj` was rewritten so that it references `a.fsproj`. -/
def toldOfClosing : Workspace Memory :=
  ((Change.told .changed ⟨"c.fsproj"⟩).run Memory.surroundings).after
    { askedBeforeClosing with
      outside := askedBeforeClosing.outside.setReport (Memory.locate ⟨"c.fsproj"⟩)
        { projectReferences := [⟨"a.fsproj"⟩] } }

/-- The workspace after `d.fsproj` was asked for, which references the circle. -/
def askedAfterClosing : Workspace Memory :=
  ((Query.options ⟨"d.fsproj"⟩).run Memory.surroundings).after toldOfClosing

set_option maxRecDepth 10000 in
/-- The circle that the edit closed is told of by `b.fsproj`, which learns of it from `c.fsproj`,
and not by `d.fsproj`. -/
theorem cycle_genuine_askedAfterClosing :
    ReachedFreely Memory.surroundings askedAfterClosing [] ∧
      (∃ r, askedAfterClosing.cache.peek (Memory.locate ⟨"b.fsproj"⟩) = some r ∧ r.isCyclic = true ∧
        (places r.cycle).Nodup ∧ Memory.locate ⟨"b.fsproj"⟩ ∈ places r.cycle ∧
        (places (closedWalk r.cycle)).IsChain askedAfterClosing.outside.Links ∧
        r.diagnostics = [⟨.cyclicReference, ⟨"/b.fsproj"⟩,
          "Cyclic project reference: /a.fsproj -> /b.fsproj -> /c.fsproj -> /a.fsproj"⟩]) ∧
      ∃ r, askedAfterClosing.cache.peek (Memory.locate ⟨"d.fsproj"⟩) = some r ∧
        ¬ TransGen askedAfterClosing.outside.Links (Memory.locate ⟨"d.fsproj"⟩)
          (Memory.locate ⟨"d.fsproj"⟩) ∧
        ∀ d ∈ r.diagnostics, d.kind ≠ .cyclicReference := by
  have hasked : ReachedFreely Memory.surroundings askedBeforeClosing [] :=
    (Reached.fresh _).ask (.options ⟨"a.fsproj"⟩) (by decide +kernel) trivial
  have htold : ReachedFreely Memory.surroundings toldOfClosing [] :=
    (hasked.edit (p := ⟨"c.fsproj"⟩) { projectReferences := [⟨"a.fsproj"⟩] } rfl rfl).tell
      (.told .changed ⟨"c.fsproj"⟩) (by decide +kernel) ⟨.project, rfl, rfl, rfl⟩
  have hrun : ReachedFreely Memory.surroundings askedAfterClosing [] :=
    htold.ask (.options ⟨"d.fsproj"⟩) (by decide +kernel) trivial
  have hmember : (askedAfterClosing.cache.peek (Memory.locate ⟨"b.fsproj"⟩)).any (fun r =>
      r.cycle = [⟨Memory.locate ⟨"a.fsproj"⟩, .project⟩, ⟨Memory.locate ⟨"b.fsproj"⟩, .project⟩,
        ⟨Memory.locate ⟨"c.fsproj"⟩, .project⟩]) = true := by
    decide +kernel
  have hbelow : (askedAfterClosing.cache.peek (Memory.locate ⟨"d.fsproj"⟩)).isSome = true := by
    decide +kernel
  have hunreferenced : ∀ entry ∈ askedAfterClosing.outside.reports,
    ∀ dep ∈ entry.2.links ⟨entry.1, .project⟩,
      dep.location ≠ Memory.locate ⟨"d.fsproj"⟩ := by
    decide +kernel
  refine ⟨hrun, ?_, ?_⟩
  · obtain ⟨r, hr, hc⟩ := (Option.any_eq_true _ _).mp hmember
    have hcycle := of_decide_eq_true hc
    have hcyclic : r.isCyclic = true := by simp [Resolution.isCyclic, hcycle]
    obtain ⟨hnodup, hmem, hwalk, hdiagnostics⟩ := (cycle_genuine hrun hr).1 hcyclic
    refine ⟨r, hr, hcyclic, hnodup, hmem, hwalk, ?_⟩
    rw [hdiagnostics, hcycle]
    decide +kernel
  · obtain ⟨r, hr⟩ := Option.isSome_iff_exists.mp hbelow
    have hcircle : ¬ TransGen askedAfterClosing.outside.Links (Memory.locate ⟨"d.fsproj"⟩)
        (Memory.locate ⟨"d.fsproj"⟩) := by
      intro h
      -- nothing references the project, so no way leads back to it
      obtain ⟨x, -, hx⟩ := TransGen.tail'_iff.mp h
      obtain ⟨entry, hentry, -, dep, hdep, hplace⟩ := hx.entry
      exact hunreferenced entry hentry dep hdep hplace
    exact ⟨r, hr, hcircle, (cycle_genuine hrun hr).2 hcircle⟩

end FSharpWorkspace
