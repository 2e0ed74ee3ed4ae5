import FSharpWorkspace.Proofs.Sequential.Operations
/-!
# Declared references are resolved

Between operations, every project that a result declares has a result as well (`declared_computed`).
This makes a cascade over the computed results find every dependent.

In the middle of a resolution it does not hold. A project on a circle gets its result before the
project that its reference leads back to, and this one is still in progress then. So what resolving
keeps is weaker: what a result declares is resolved or in progress (`Workspace.Covers`). Between
operations nothing is in progress.
-/

set_option autoImplicit false

namespace FSharpWorkspace

/-! ## What a result declares -/

/-- A project declares the references that the table gave it, and a script declares nothing. -/
def Resolution.Declares (table : Location → CrackReport) (r : Resolution) : Prop :=
  r.declared = if r.id.kind = .project then (table r.id.location).links r.id else []

theorem Resolution.Leaf.declares {id : Identity} {stamp : Nat} {r : Resolution}
    (h : r.Leaf id stamp) (hk : id.kind ≠ .project)
    (table : Location → CrackReport) : r.Declares table := by
  unfold Resolution.Declares
  rw [h.declared, h.id, if_neg hk]

/-- A failing report has no links, and its result declares nothing. -/
theorem CrackReport.result_declared {report : CrackReport} {id : Identity} {linked : Act.Linked}
    (stamp : Nat) (loadTime : LoadTime) (h : linked.declared = report.links id) :
    (report.result id stamp loadTime linked).declared = report.links id := by
  cases he : report.error with
  | some error =>
      simp [CrackReport.result, CrackReport.links, he, Resolution.failed, Resolution.empty]
  | none => simpa [CrackReport.result, he] using h

theorem Act.Linked.add_declared (id dep : Identity) (linked : Act.Linked)
    (a : Except (List Identity) Resolution) :
    (linked.add id dep a).declared = linked.declared ++ [dep] := by
  cases a <;> rfl

/-! ## Resolved or in progress -/

def Workspace.Covers (w : Workspace Memory) (l : Location) : Prop :=
  (∃ r, w.cache.peek l = some r) ∨ w.cache.Busy l

/-- Every result declares what some table out of `told` says, and what it declares is covered. -/
structure Workspace.Declaring (told : (Location → CrackReport) → Prop)
    (w : Workspace Memory) : Prop where
  place : ∀ l r, w.cache.peek l = some r → r.id.location = l
  declares : ∀ l r, w.cache.peek l = some r → ∃ table, told table ∧ r.Declares table
  covered : ∀ l r, w.cache.peek l = some r → ∀ dep ∈ r.declared, w.Covers dep.location

section

variable {told told' : (Location → CrackReport) → Prop} {w w₁ w' : Workspace Memory}

theorem Workspace.Declaring.fresh (told : (Location → CrackReport) → Prop) (m : Memory) :
    (Workspace.fresh m).Declaring told :=
  ⟨by simp, by simp, by simp⟩

theorem Workspace.Declaring.mono (hd : w.Declaring told) (h : ∀ table, told table → told' table) :
    w.Declaring told' where
  place := hd.place
  declares l r hr := by
    obtain ⟨table, ht, hr⟩ := hd.declares l r hr
    exact ⟨table, h table ht, hr⟩
  covered := hd.covered

/-- The map alone decides, so the surroundings may change without notice. -/
theorem Workspace.Declaring.outside (hd : w.Declaring told) (m : Memory) :
    Workspace.Declaring told { w with outside := m } :=
  ⟨hd.place, hd.declares, hd.covered⟩

theorem Still.covers (hw : w.Tidy) (h : Still w w') {l : Location}
    (hl : w.Covers l) : w'.Covers l :=
  hl.imp (fun ⟨r, hr⟩ => ⟨r, h.peek hw hr⟩) (h.busy_iff l).mpr

theorem Still.report (h : Still w w') : w'.outside.report = w.outside.report := by
  obtain ⟨cracks, ho⟩ := h.outside
  rw [ho]
  rfl

/-! ## A file in flight -/

section Flight

variable {id : Identity} {s : Serial} {c : Cache Resolution} {m : Memory} {r : Resolution}

theorem Workspace.Declaring.claim (hd : w.Declaring told) (hw : w.Tidy)
    (hc : w.cache.Claims 0 id.location s id c) :
    Workspace.Declaring told { w with cache := c } := by
  have hpeek : ∀ n, c.peek n = w.cache.peek n := hc.peek hw.lone
  refine ⟨fun l r hr => hd.place l r ((hpeek l).symm.trans hr),
    fun l r hr => hd.declares l r ((hpeek l).symm.trans hr), fun l r hr dep hdep => ?_⟩
  rcases hd.covered l r ((hpeek l).symm.trans hr) dep hdep with ⟨u, hu⟩ | hb
  · exact Or.inl ⟨u, (hpeek _).trans hu⟩
  · exact Or.inr ((hc.busy_iff _).mpr (Or.inl hb))

/-- The file in flight ends resolved, so no file that was covered before it arrives is
uncovered by that. -/
theorem Workspace.Covers.arrive (hc : w.cache.Claims 0 id.location s id c)
    (hel : Elapsed [] { w with cache := c } w₁) (hw₁ : w₁.Tidy) {l : Location} (hl : w₁.Covers l) :
    (w₁.arrive s r).Covers l := by
  have hpeek := hel.peek_arrive hc hw₁ r l
  by_cases hid : l = id.location
  · exact Or.inl ⟨r, hpeek.trans (if_pos hid)⟩
  · rcases hl with ⟨u, hu⟩ | hb
    · exact Or.inl ⟨u, (hpeek.trans (if_neg hid)).trans hu⟩
    · -- it was in progress before the flight, further out, and still is
      have hbefore : w.cache.Busy l :=
        ((hc.busy_iff l).mp (hel.cache.was_busy hb).1).resolve_right hid
      have hflight : w.cache.Evolves (fun _ => True) [] (w₁.arrive s r).cache :=
        hc.evolves_finish (hel.cache.mono fun _ _ => trivial) trivial
      exact Or.inr (hflight.stays_busy hbefore (by simp))

theorem Workspace.Declaring.arrive (hc : w.cache.Claims 0 id.location s id c)
    (hel : Elapsed [] { w with cache := c } w₁) (hw₁ : w₁.Tidy) (hd : w₁.Declaring told)
    (hid : r.id = id) (hr : ∃ table, told table ∧ r.Declares table)
    (hcovered : ∀ dep ∈ r.declared, w₁.Covers dep.location) :
    (w₁.arrive s r).Declaring told := by
  refine ⟨fun l u hu => ?_, fun l u hu => ?_, fun l u hu dep hdep => ?_⟩
  · rcases hel.peek_arrive_cases hc hw₁ hu with ⟨rfl, rfl⟩ | hold
    · rw [hid]
    · exact hd.place l u hold
  · rcases hel.peek_arrive_cases hc hw₁ hu with ⟨-, rfl⟩ | hold
    · exact hr
    · exact hd.declares l u hold
  · rcases hel.peek_arrive_cases hc hw₁ hu with ⟨-, rfl⟩ | hold
    · exact (hcovered dep hdep).arrive hc hel hw₁
    · exact (hd.covered l u hold dep hdep).arrive hc hel hw₁

end Flight

/-! ## Resolving -/

/-- What comes of an errand: the file is covered, or the references are declared and covered. -/
def Errand.Covers : Errand → Answer → Workspace Memory → Prop
  | fetch id _, .fetched _, w => w.Covers id.location
  | follow _ _ deps linked, .followed linked', w =>
    linked'.declared = linked.declared ++ deps ∧ ∀ dep ∈ deps, w.Covers dep.location
  | _, _, _ => False

theorem Steps.declaring {t : Errand} {a : Answer} (h : Steps Memory.surroundings t w a w')
    (ht : t.WellFormed) (hw : w.Tidy) (hd : w.Declaring told) (htold : told w.outside.report) :
    w'.Declaring told ∧ t.Covers a w' := by
  induction h with
  | ready hp => exact ⟨hd, Or.inl ⟨_, hp⟩⟩
  | refused hb => exact ⟨hd, Or.inr hb⟩
  | @leaf id path w s c r hk hc hr _ =>
      have hw₁ := hw.claim ht hc
      have hel := Elapsed.refl { w with cache := c }
      refine ⟨(hd.claim hw hc).arrive hc hel hw₁ hr.id ⟨_, htold, hr.declares hk _⟩ ?_, ?_⟩
      · simp [hr.declared]
      · exact Workspace.Covers.arrive hc hel hw₁ (Or.inr hc.busy)
  | @project id path w w₁ w₂ s c report loadTime linked r hk hc hcrack hfollow hr ih =>
      -- the links are followed in the workspace the crack leaves, and nothing fetched on the
      -- way touches the slot claimed for this project
      cases hcrack
      have hw₀ := (hw.claim ht hc).outside (w.outside.countCrack id.location)
      have hwf :=
        Errand.WellFormed.links ht (path ++ [id]) (w.outside.report id.location) Act.Linked.start
      obtain ⟨hstill, -⟩ := hfollow.still hwf hw₀
      obtain ⟨hd₂, hdeclared, hcovered⟩ := ih hwf hw₀ ((hd.claim hw hc).outside _) htold
      have hrid : r.id = id := by rw [hr, CrackReport.result_id]
      have hrdeclared : r.declared = (w.outside.report id.location).links id := by
        rw [hr]
        exact CrackReport.result_declared _ _ hdeclared
      have hel : Elapsed [] { w with cache := c } w₂ :=
        (countCrack_changes id.location { w with cache := c }).elapsed.trans hstill.elapsed
      refine ⟨hd₂.arrive hc hel hstill.tidy hrid ⟨_, htold, ?_⟩ ?_, ?_⟩
      · unfold Resolution.Declares
        rw [hrdeclared, hrid, if_pos hk]
      · rw [hrdeclared]
        exact hcovered
      · have hbusy : w₂.cache.Busy id.location := (hstill.busy_iff id.location).mpr hc.busy
        exact Workspace.Covers.arrive hc hel hstill.tidy (Or.inr hbusy)
  | nil => exact ⟨hd, by simp [Errand.Covers]⟩
  | @cons id dep path deps linked linked' answer w w₁ w₂ hfetch hfollow ih₁ ih₂ =>
      have hdep := (ht.2 dep (by simp)).1
      obtain ⟨hstill, -⟩ := hfetch.still hdep hw
      obtain ⟨hd₁, hfetched⟩ := ih₁ hdep hw hd htold
      have hwf : (Errand.follow id path deps (linked.add id dep answer)).WellFormed :=
        ⟨ht.1, fun d hd => ht.2 d (by simp [hd])⟩
      obtain ⟨hstill', -⟩ := hfollow.still hwf hstill.tidy
      obtain ⟨hd₂, hdeclared, hcovered⟩ := ih₂ hwf hstill.tidy hd₁ (hstill.report ▸ htold)
      refine ⟨hd₂, ?_, fun d hmem => ?_⟩
      · rw [hdeclared, Act.Linked.add_declared, List.append_assoc]
        rfl
      · rcases List.mem_cons.mp hmem with rfl | hmem
        · exact hstill'.covers hstill.tidy hfetched
        · exact hcovered d hmem

/-! ## Operations -/

theorem Fetches.declaring (h : Fetches Memory.surroundings w w') (hw : w.Quiet)
    (hd : w.Declaring told) (htold : told w.outside.report) : w'.Declaring told := by
  induction h with
  | refl => exact hd
  | cons hid hs _ ih =>
      obtain ⟨hstill, -⟩ := hs.still hid hw.tidy
      exact ih (hw.steps surroundings_mild hid hs)
        (hs.declaring hid hw.tidy hd htold).1 (hstill.report ▸ htold)

/-- A file that is invalidated takes every result with it that declares it. -/
theorem Workspace.Declaring.changes {xs : List Location} (hd : w.Declaring told) (hw : w.Quiet)
    (h : Changes xs w w') : w'.Declaring told := by
  have hold : ∀ l r, w'.cache.peek l = some r → w.cache.peek l = some r ∧ l ∉ xs :=
    fun l r hr => (h.peek hw.tidy.lone l r).mp hr
  refine ⟨fun l r hr => hd.place l r (hold l r hr).1, fun l r hr => hd.declares l r (hold l r hr).1,
    fun l r hr dep hdep => ?_⟩
  obtain ⟨hr₀, hl⟩ := hold l r hr
  by_cases hx : dep.location ∈ xs
  · -- what is left does not depend on it, so it is the project itself, which has a result
    have hdepends := h.closed _ hx l r hr
    have hamong : Identity.isAmong dep.location r.declared = true := by
      simpa [Identity.isAmong] using ⟨dep, hdep, rfl⟩
    have hself : r.id.location = dep.location := by
      by_contra hne
      simp [Resolution.dependsOn, hne, hamong] at hdepends
    exact Or.inl ⟨r, by rw [← hself, hd.place l r hr₀]; exact hr⟩
  · rcases hd.covered l r hr₀ dep hdep with ⟨u, hu⟩ | hb
    · exact Or.inl ⟨u, (h.peek hw.tidy.lone _ u).mpr ⟨hu, hx⟩⟩
    · exact absurd hb (hw.idle.not_busy _)

theorem Operation.declaring {op : Operation} (hw : w.Quiet) (hd : w.Declaring told)
    (htold : told w.outside.report) (h : op.run w = .ok () w') : w'.Declaring told := by
  cases op with
  | ask q => exact (q.fetches surroundings_mild hw h).declaring hw hd htold
  | tell c =>
      obtain ⟨xs, hx, -⟩ := c.run_changes surroundings_mild.rooted hw.tidy.lone h
      exact hd.changes hw hx
  | edit p report =>
      cases h
      exact hd.outside _
  | write p content =>
      cases h
      exact hd.outside _
  | remove p =>
      cases h
      exact hd.outside _

end

/-- Does one operation after the other. -/
def Operation.runAll : List Operation → Act Memory Unit
  | [] => pure ()
  | op :: ops => do
    op.run
    runAll ops

theorem Operation.runAll_concat {ops : List Operation} {op : Operation} {w w₁ w' : Workspace Memory}
    (h : runAll ops w = .ok () w₁) (hop : op.run w₁ = .ok () w') :
    runAll (ops ++ [op]) w = .ok () w' := by
  induction ops generalizing w with
  | nil =>
      obtain ⟨-, rfl⟩ := Act.pure_eq_ok.mp h
      exact Act.bind_ok hop rfl
  | cons first ops ih =>
      obtain ⟨_, w₀, hfirst, hrest⟩ := Act.bind_eq_ok.mp h
      exact Act.bind_ok hfirst (ih hrest)

/-- What the table says at some moment of a run, between two operations. -/
def Operation.Told (m : Memory) (ops : List Operation) (table : Location → CrackReport) : Prop :=
  ∃ before w, before <+: ops ∧ runAll before (.fresh m) = .ok () w ∧ table = w.outside.report

/-- A run comes to its end, and leaves a workspace between resolutions. -/
theorem Operation.runAll_declaring (m : Memory) (ops : List Operation) :
    ∃ w, runAll ops (.fresh m) = .ok () w ∧ w.Quiet ∧ w.Declaring (Told m ops) := by
  induction ops using List.reverseRecOn with
  | nil => exact ⟨.fresh m, rfl, .fresh m, .fresh _ m⟩
  | append_singleton ops op ih =>
      obtain ⟨w, hrun, hw, hd⟩ := ih
      obtain ⟨w', hop⟩ := op.returns hw
      have hrun' := runAll_concat hrun hop
      refine ⟨w', hrun', op.quiet hw hop, ?_⟩
      have hmono : ∀ table, Told m ops table → Told m (ops ++ [op]) table := by
        rintro table ⟨before, w₀, hpre, hrest⟩
        exact ⟨before, w₀, hpre.trans (List.prefix_append _ _), hrest⟩
      exact Operation.declaring hw (hd.mono hmono) ⟨ops, w, List.prefix_append _ _, hrun, rfl⟩ hop

/-- **Declared references are resolved.** After any operations, edits that the workspace was not
told of among them, nothing is in progress, and every project that a result declares has a result.
A result declares each project that the table made its project reference at some moment of the run,
be the reference refused because it closes a circle, or be it to a project that the table does not
know or that fails. -/
theorem declared_computed (m : Memory) (ops : List Operation) :
    ∃ w, Operation.runAll ops (.fresh m) = .ok () w ∧ w.Idle ∧
      ∀ l r, w.cache.peek l = some r →
        (∀ dep ∈ r.declared, (w.cache.peek dep.location).isSome) ∧
        ∃ before w₀, before <+: ops ∧ Operation.runAll before (.fresh m) = .ok () w₀ ∧
          r.Declares w₀.outside.report := by
  obtain ⟨w, hrun, hw, hd⟩ := Operation.runAll_declaring m ops
  refine ⟨w, hrun, hw.idle, fun l r hr => ⟨fun dep hdep => ?_, ?_⟩⟩
  · rcases hd.covered l r hr dep hdep with ⟨u, hu⟩ | hb
    · rw [hu]
      rfl
    · exact absurd hb (hw.idle.not_busy _)
  · obtain ⟨table, ⟨before, w₀, hpre, hrun₀, rfl⟩, hdeclares⟩ := hd.declares l r hr
    exact ⟨before, w₀, hpre, hrun₀, hdeclares⟩

end FSharpWorkspace
