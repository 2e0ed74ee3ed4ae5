import FSharpWorkspace.Proofs.Held.Kept
/-!
# Resolving keeps a workspace sound

What resolving a file brings (`Fetched`) and what following the references of a project brings
(`Followed`). Both leave a sound workspace, and both are flights. `ResolveRule` lists what has to be
shown to prove more of them; `Steps.brings` is the induction over the rules of `Steps` behind it.
-/

set_option autoImplicit false

namespace FSharpWorkspace

/-- The results in an answer. -/
def Answer.roots : Except (List Identity) Resolution → List (Option Location × Resolution)
  | .ok r => [(r.target, r)]
  | .error _ => []

/-- A result for `id` that was made before `w`. -/
structure Workspace.HasMade (w : Workspace Memory) (id : Identity) (r : Resolution) : Prop where
  id : r.id = id
  grounded : r.Grounded
  stamp : r.stamp < w.made

theorem Workspace.HasMade.later {w w' : Workspace Memory} {id : Identity} {r : Resolution}
    (h : w.HasMade id r) (hw : w.made ≤ w'.made) : w'.HasMade id r :=
  ⟨h.id, h.grounded, Nat.lt_of_lt_of_le h.stamp hw⟩

/-- Resolving the file `id` took from `w` to `w'`, while `E` was invalidated, and answered `a`. -/
structure Fetched (E : List Location) (id : Identity) (w : Workspace Memory)
    (a : Except (List Identity) Resolution) (w' : Workspace Memory) : Prop where
  sound : w'.Sound []
  flight : Flight E w w' (Answer.roots a)
  made : ∀ r, a = .ok r → w'.HasMade id r
  refused : ∀ members, a = .error members → w.cache.Busy id.location ∧ members ≠ []

/-- Following the references `deps` of `id` took from `w` to `w'`, while `E` was invalidated. -/
structure Followed (E : List Location) (deps : List Identity) (w : Workspace Memory)
    (outcomes : Outcomes) (w' : Workspace Memory) : Prop where
  sound : w'.Sound []
  flight : Flight E w w' outcomes.held
  deps : outcomes.map (·.1) = deps
  made : ∀ dep r, (dep, .ok r) ∈ outcomes → w'.HasMade dep r
  refused : ∀ dep members, (dep, .error members) ∈ outcomes →
    w.cache.Busy dep.location ∧ members ≠ []

theorem Outcomes.held_cons (dep : Identity) (a : Except (List Identity) Resolution)
    (outcomes : Outcomes) :
    Outcomes.held ((dep, a) :: outcomes) = Answer.roots a ++ outcomes.held := by
  cases a <;> simp [Outcomes.held, Answer.roots, Except.toOption]

theorem Followed.nil {w : Workspace Memory} (hw : w.Sound []) : Followed [] [] w [] w where
  sound := hw
  flight := hw.flight_nil
  deps := rfl
  made dep r h := by cases h
  refused dep members h := by cases h

theorem Followed.cons {E E' : List Location} {dep : Identity} {deps : List Identity}
    {w w₁ w' : Workspace Memory} {a : Except (List Identity) Resolution} {outcomes : Outcomes}
    (hw : w.Sound []) (h : Fetched E dep w a w₁) (h' : Followed E' deps w₁ outcomes w') :
    Followed (E ++ E') (dep :: deps) w ((dep, a) :: outcomes) w' where
  sound := h'.sound
  flight := by
    rw [Outcomes.held_cons]
    exact h.flight.trans hw h.sound h'.sound h'.flight
  deps := by rw [List.map_cons, h'.deps]
  made d r hd := by
    rcases List.mem_cons.mp hd with he | hd
    · cases he
      exact (h.made r rfl).later h'.flight.elapsed.made
    · exact h'.made d r hd
  refused d members hd := by
    rcases List.mem_cons.mp hd with he | hd
    · cases he
      exact h.refused members rfl
    · exact (h'.refused d members hd).imp_left fun hb => (h.flight.elapsed.cache.was_busy hb).1

/-- The end of a project: its references were followed, and the result is made of
what they brought. -/
theorem Followed.arrives {E xs ys : List Location} {w w₁ w₂ : Workspace Memory} {s : Serial}
    {id : Identity} {c : Cache Resolution} {report : CrackReport} {outcomes : Outcomes}
    {loadTime : LoadTime} {r : Resolution} (hw : w.Sound []) (hid : id.WellFormed)
    (hk : id.kind = .project) (hc : w.cache.Claims 0 id.location s id c)
    (hx : Cracks id.location xs ys { w with cache := c } report w₁)
    (h : Followed E (report.links id) w₁ outcomes w₂)
    (hr : r = report.result id w₂.made loadTime (Act.Linked.start.addAll id outcomes)) :
    Arrives (xs ++ ys ++ E) w s c w₂ r ∧ report.Made outcomes r := by
  have hrid : r.id = id := by rw [hr, CrackReport.result_id]
  have hstamp : r.stamp = w₂.made := by rw [hr, CrackReport.result_stamp]
  have hmade : report.Made outcomes r := by
    refine ⟨hrid ▸ hk, by rw [h.deps, hrid], fun dep p hp => (h.made dep p hp).id,
      fun dep members hm => (h.refused dep members hm).2, ?_⟩
    rw [hrid, hstamp]
    have htime : r.loadTime = loadTime := by
      rw [hr]
      unfold CrackReport.result
      split <;> rfl
    rw [htime]
    exact hr
  have hw₀ := hw.claim hid hc
  have hw₁ := hw₀.cracks hx
  have hcrack : Flight (xs ++ ys) { w with cache := c } w₁ [] := by
    obtain ⟨wₘ, hxs, -, hys⟩ := hx.moment
    exact (hxs.flight hw₀).trans hw₀ (hw₀.changes_nil hxs) hw₁ (hys.flight (hw₀.changes_nil hxs))
  refine ⟨⟨hrid ▸ hc, ?_, hstamp, hrid ▸ hid, ?_, ?_, ?_⟩, hmade⟩
  · -- the flight of the crack comes before that of the references
    rw [hmade.references]
    exact hcrack.trans hw₀ hw₁ h.sound h.flight
  · refine hmade.grounded fun dep p hp => ?_
    have hp' := h.made dep p hp
    exact ⟨hp'.grounded, hstamp ▸ hp'.stamp⟩
  · intro x hx'
    obtain ⟨dep, members, rfl, hmem⟩ := hmade.refused_of_cuts hx'
    exact (hcrack.elapsed.cache.was_busy (h.refused dep members hmem).1).1
  · -- the table says of the project what it said when it was cracked, unless the project
    -- was changed since
    intro hn
    rw [hrid] at hn
    obtain ⟨hxy, hE⟩ := not_or.mp (List.mem_append.not.mp hn)
    obtain ⟨-, hy⟩ := not_or.mp (List.mem_append.not.mp hxy)
    have hreport : w₂.outside.report r.id.location = report := by
      rw [hrid, h.flight.elapsed.report _ hE, ← hx.report_eq hy]
    exact .of_made (hreport ▸ hmade)

/-- A file without references, resolved at once. -/
theorem Resolution.Leaf.arrives {w : Workspace Memory} {s : Serial} {id : Identity}
    {c : Cache Resolution} {r : Resolution} (hw : w.Sound []) (hid : id.WellFormed)
    (hk : id.kind ≠ .project) (hc : w.cache.Claims 0 id.location s id c) (hr : r.Leaf id w.made) :
    Arrives [] w s c { w with cache := c } r where
  claim := hr.id ▸ hc
  flight := by
    rw [hr.references]
    exact (hw.claim hid hc).flight_nil
  stamp := hr.stamp
  wellFormed := hr.id ▸ hid
  grounded := .mk (by simp [hr.references]) (by simp [hr.references])
  explained x hx := by
    obtain ⟨⟨dep, hdep, -⟩, -⟩ := hx
    rw [hr.declared] at hdep
    cases hdep
  reported _ := hr.reported hk _

theorem Arrives.fetched {E : List Location} {w w₁ : Workspace Memory} {s : Serial} {id : Identity}
    {c : Cache Resolution} {r : Resolution} (h : Arrives E w s c w₁ r) (hid : r.id = id)
    (hw : w.Sound []) (hw₁ : w₁.Sound []) : Fetched E id w (.ok r) (w₁.arrive s r) where
  sound := h.sound hw₁
  flight := h.flight_arrive hw hw₁ _
  made r' hr' := by
    cases hr'
    refine ⟨hid, h.grounded, ?_⟩
    rw [h.stamp]
    exact Nat.lt_succ_self _
  refused members hm := by cases hm

/-! ## One rule for all that is proved of resolutions -/

/-- What a cracker does: between the calls `w` and `w'` it invalidates two lists of files
that are `admitted`. -/
def CracksWithin (env : Surroundings Memory) (admitted : List Location → Prop) : Prop :=
  ∀ l w report w', w.cache.Lone → env.crack l w = .ok report w' →
    ∃ xs ys, admitted xs ∧ admitted ys ∧ Cracks l xs ys w report w'

theorem Mild.cracksWithin {env : Surroundings Memory} (henv : Mild env) :
    CracksWithin env fun _ => True := by
  intro l w report w' hw h
  obtain ⟨xs, ys, hx⟩ := henv.crack l w report w' hw h
  exact ⟨xs, ys, trivial, trivial, hx⟩

/-- What has to be shown to prove `P` of every file that is resolved and `Q` of the references that
are followed. What is known anyway may be used: the workspace before is sound, and what came back
came with a flight. -/
structure ResolveRule (admitted : List Location → Prop)
    (P : List Location → Identity → List Identity → Workspace Memory →
      Except (List Identity) Resolution →
      Workspace Memory → Prop)
    (Q : List Location → Identity → List Identity → List Identity → Workspace Memory → Outcomes →
      Workspace Memory → Prop) : Prop where
  ready : ∀ {id path w r}, w.Sound [] → id.WellFormed → w.cache.peek id.location = some r →
    P [] id path w (.ok r) w
  refused : ∀ {id path w}, w.Sound [] → id.WellFormed → w.cache.Busy id.location →
    P [] id path w (.error (circle path id)) w
  leaf : ∀ {id path w s c r}, w.Sound [] → id.WellFormed → id.kind ≠ .project →
    Arrives [] w s c { w with cache := c } r → r.Leaf id w.made →
    P [] id path w (.ok r) (Workspace.arrive { w with cache := c } s r)
  project : ∀ {E xs ys id path w w₁ w₂ s c report outcomes r},
    w.Sound [] → id.WellFormed → id.kind = .project →
    admitted xs → admitted ys → Cracks id.location xs ys { w with cache := c } report w₁ →
    Followed E (report.links id) w₁ outcomes w₂ →
      Q E id (path ++ [id]) (report.links id) w₁ outcomes w₂ →
    Arrives (xs ++ ys ++ E) w s c w₂ r → report.Made outcomes r → r.id = id →
    P (xs ++ ys ++ E) id path w (.ok r) (w₂.arrive s r)
  nil : ∀ {id path w}, w.Sound [] → Q [] id path [] w [] w
  cons : ∀ {E E' id path dep deps w w₁ w' a outcomes},
    w.Sound [] → dep.WellFormed → dep.kind = .project →
    Fetched E dep w a w₁ → P E dep path w a w₁ → Followed E' deps w₁ outcomes w' →
    Q E' id path deps w₁ outcomes w' → Q (E ++ E') id path (dep :: deps) w ((dep, a) :: outcomes) w'

/-- What an errand brings, whichever it is. -/
def Brings
    (P : List Location → Identity → List Identity → Workspace Memory →
      Except (List Identity) Resolution →
      Workspace Memory → Prop)
    (Q : List Location → Identity → List Identity → List Identity → Workspace Memory → Outcomes →
      Workspace Memory → Prop) : Errand → Workspace Memory → Answer → Workspace Memory → Prop
  | .fetch id path, w, .fetched a, w' => ∃ E, Fetched E id w a w' ∧ P E id path w a w'
  | .follow id path deps linked, w, .followed linked', w' =>
    ∃ E outcomes, Followed E deps w outcomes w' ∧ linked' = linked.addAll id outcomes ∧
      Q E id path deps w outcomes w'
  | _, _, _, _ => True

theorem Steps.brings {env : Surroundings Memory} {admitted : List Location → Prop}
    (henv : CracksWithin env admitted)
    {P : List Location → Identity → List Identity → Workspace Memory →
      Except (List Identity) Resolution →
      Workspace Memory → Prop}
    {Q : List Location → Identity → List Identity → List Identity → Workspace Memory → Outcomes →
      Workspace Memory → Prop} (rule : ResolveRule admitted P Q) {t : Errand}
    {w w' : Workspace Memory} {a : Answer} (h : Steps env t w a w') (ht : t.WellFormed)
    (hw : w.Sound []) : Brings P Q t w a w' := by
  induction h with
  | @ready id path w r hp =>
      refine ⟨[], ⟨hw, hw.flight_ready _ hp, fun r' hr' => ?_, fun members hm => ?_⟩,
        rule.ready hw ht hp⟩
      · cases hr'
        have hk := hw.keeps _ _ hp
        exact ⟨hk.wellFormed.eq ht hk.place, hk.grounded, hk.stamp⟩
      · cases hm
  | refused hb =>
      refine ⟨[], ⟨hw, hw.flight_nil, fun r hr => ?_, fun members hm => ?_⟩, rule.refused hw ht hb⟩
      · cases hr
      · cases hm
        exact ⟨hb, circle_ne_nil _ _⟩
  | leaf hk hc hr _ =>
      have harr := hr.arrives hw ht hk hc
      exact ⟨[], harr.fetched hr.id hw (hw.claim ht hc), rule.leaf hw ht hk harr hr⟩
  | @project id path w w₁ w₂ s c report loadTime linked r hk hc hcrack _ hr ih =>
      have hw₀ := hw.claim ht hc
      obtain ⟨xs, ys, hxs, hys, hx⟩ := henv _ _ _ _ hw₀.tidy.lone hcrack
      obtain ⟨E, outcomes, hf, rfl, hq⟩ := ih (.links ht _ _ _) (hw₀.cracks hx)
      have hrid : r.id = id := by rw [hr, CrackReport.result_id]
      obtain ⟨harr, hmade⟩ := hf.arrives hw ht hk hc hx hr
      exact ⟨_, harr.fetched hrid hw hf.sound,
        rule.project hw ht hk hxs hys hx hf hq harr hmade hrid⟩
  | nil => exact ⟨[], [], .nil hw, rfl, rule.nil hw⟩
  | @cons id dep path deps linked linked' answer w w₁ w₂ _ _ ih₁ ih₂ =>
      obtain ⟨hdep, hproject⟩ := ht.2 dep (by simp)
      obtain ⟨E, hE, hP⟩ := ih₁ hdep hw
      obtain ⟨E', outcomes, hE', hl, hQ⟩ := ih₂ ⟨ht.1, fun d hd => ht.2 d (by simp [hd])⟩ hE.sound
      exact ⟨E ++ E', (dep, answer) :: outcomes, .cons hw hE hE', hl,
        rule.cons hw hdep hproject hE hP hE' hQ⟩

/-- Resolving a file leaves a sound workspace, and is a flight. -/
theorem Steps.fetched {env : Surroundings Memory} (henv : Mild env) {id : Identity}
    {path : List Identity} {w w' : Workspace Memory} {a : Except (List Identity) Resolution}
    (h : Steps env (.fetch id path) w (.fetched a) w') (hid : id.WellFormed) (hw : w.Sound []) :
    ∃ E, Fetched E id w a w' := by
  have rule : ResolveRule (fun _ => True) (fun _ _ _ _ _ _ => True) (fun _ _ _ _ _ _ _ => True) :=
    ⟨fun _ _ _ => trivial, fun _ _ _ => trivial, fun _ _ _ _ _ => trivial,
      fun _ _ _ _ _ _ _ _ _ _ _ => trivial, fun _ => trivial, fun _ _ _ _ _ _ _ => trivial⟩
  obtain ⟨E, hE, -⟩ := h.brings henv.cracksWithin rule hid hw
  exact ⟨E, hE⟩

end FSharpWorkspace
