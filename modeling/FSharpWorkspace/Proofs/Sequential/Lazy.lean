import FSharpWorkspace.Proofs.Sequential.Owners
import FSharpWorkspace.Proofs.Sequential.Reach
/-!
# What a search cracks

The search for the owner of a file is lazy. A project is cracked only because a candidate is
resolved, and then it is reached from that candidate along references (`Steps.cracked_reached`). A
candidate is resolved only if it mentions the name of the file and none before it turned out to
compile the file (`tryCandidates_cracks`). So a project that is cracked is reached from a candidate
that is tried in time (`owner_lazy`).
-/

set_option autoImplicit false

namespace FSharpWorkspace

open Relation (ReflTransGen)

section

variable {w w' : Workspace Memory}

/-! ## Resolving -/

/-- The project at `n` is reached from what there is to do. -/
def Errand.Reaches (m : Memory) (n : Location) : Errand → Prop
  | fetch id _ =>
    id.kind = .project ∧ ∃ x : Identity, ReflTransGen m.References id x ∧ x.location = n
  | follow _ _ deps _ =>
    ∃ dep ∈ deps, ∃ x : Identity, ReflTransGen m.References dep x ∧ x.location = n

/-- A project is cracked only if it is reached. -/
theorem Steps.cracked_reached {t : Errand} {a : Answer} (h : Steps Memory.surroundings t w a w')
    (ht : t.WellFormed) (hw : w.Tidy) {n : Location}
    (hn : w'.outside.cracksOf n ≠ w.outside.cracksOf n) :
    t.Reaches w.outside n := by
  induction h with
  | ready _ => exact absurd rfl hn
  | refused _ => exact absurd rfl hn
  | leaf _ _ _ _ => exact absurd rfl hn
  | @project id path w w₁ w₂ s c report loadTime linked r hk hc hcrack hfollow _ ih =>
      cases hcrack
      refine ⟨hk, ?_⟩
      by_cases hself : n = id.location
      · exact ⟨id, .refl, hself.symm⟩
      · have hw₀ := (hw.claim ht hc).outside (w.outside.countCrack id.location)
        have hcount := Memory.cracksOf_countCrack w.outside id.location n
        rw [if_neg hself, Nat.add_zero] at hcount
        obtain ⟨dep, hdep, x, hx, hplace⟩ :=
          ih (.links ht _ _ _) hw₀ fun heq => hn (heq.trans hcount)
        exact ⟨x, .head ⟨hk, hdep⟩ hx, hplace⟩
  | nil => exact absurd rfl hn
  | @cons id dep path deps linked linked' answer w w₁ w₂ hfetch hfollow ih₁ ih₂ =>
      have hdep := (ht.2 dep (by simp)).1
      obtain ⟨hstill, -⟩ := hfetch.still hdep hw
      by_cases hfirst : w₁.outside.cracksOf n = w.outside.cracksOf n
      · obtain ⟨d, hd, x, hx, hplace⟩ :=
          ih₂ ⟨ht.1, fun d hd => ht.2 d (by simp [hd])⟩ hstill.tidy
            fun heq => hn (heq.trans hfirst)
        rw [Memory.references_congr fun l => congrFun hstill.report l] at hx
        exact ⟨d, by simp [hd], x, hx, hplace⟩
      · obtain ⟨-, x, hx, hplace⟩ := ih₁ hdep hw hfirst
        exact ⟨dep, by simp, x, hx, hplace⟩

/-- A script is resolved without cracking anything. -/
theorem Steps.script_cracks {id : Identity} {path : List Identity} {a : Answer} {n : Location}
    (h : Steps Memory.surroundings (.fetch id path) w a w') (hid : id.WellFormed)
    (hk : id.kind ≠ .project) (hw : w.Tidy) : w'.outside.cracksOf n = w.outside.cracksOf n := by
  by_contra hn
  exact hk (h.cracked_reached hid hw hn).1

/-! ## Searching -/

/-- What is resolved in a search was not cracked unless it is reached. -/
theorem Searched.cracked_reached {w₀ : Workspace Memory} (h : Searched w₀ w) {id : Identity}
    (hid : id.WellFormed) {r : Resolution} (hr : Act.resolve Memory.surroundings id w = .ok r w')
    {n : Location} (hn : w'.outside.cracksOf n ≠ w.outside.cracksOf n) :
    id.kind = .project ∧ ∃ x : Identity,
      ReflTransGen w₀.outside.References id x ∧ x.location = n := by
  obtain ⟨u, w₁, hu, hs⟩ := resolve_returns hid h.quiet.tidy h.quiet.idle.not_busy
  cases hu.symm.trans hr
  obtain ⟨hk, x, hx, hplace⟩ := hs.cracked_reached hid h.quiet.tidy hn
  rw [Memory.references_congr fun l => congrFun h.still.report l] at hx
  exact ⟨hk, x, hx, hplace⟩

/-- A project is cracked in a search for the sake of a candidate that mentions the name of the file,
and none before it compiles the file. -/
theorem tryCandidates_cracks {w₀ : Workspace Memory} (hw₀ : w₀.Quiet) (file : Location)
    {ids : List Identity} (hids : ∀ id ∈ ids, w₀.Candidate id) (h : Searched w₀ w)
    {broken : Option Resolution} {answer : Except (Option Resolution) Resolution}
    (hrun : Act.tryCandidates Memory.surroundings file (file.fileName?.getD file.text) ids
      broken w = .ok answer w') {n : Location} (hn : w'.outside.cracksOf n ≠ w.outside.cracksOf n) :
    ∃ before id after, ids = before ++ id :: after ∧
      (∀ x ∈ before, w₀.outside.offers file x = false) ∧
      w₀.outside.mentions id (file.fileName?.getD file.text) = true ∧ id.kind = .project ∧
      ∃ x : Identity, ReflTransGen w₀.outside.References id x ∧ x.location = n := by
  induction ids generalizing w broken with
  | nil =>
      obtain ⟨-, rfl⟩ := Act.pure_eq_ok.mp hrun
      exact absurd rfl hn
  | cons id rest ih =>
      have hid := hids id (by simp)
      have hrest := fun x hx => hids x (List.mem_cons_of_mem id hx)
      -- what is cracked later is cracked for a candidate of the rest
      have hlater : ∀ {w₁ : Workspace Memory} {broken : Option Resolution},
        w₀.outside.offers file id = false →
          Searched w₀ w₁ → w'.outside.cracksOf n ≠ w₁.outside.cracksOf n →
          Act.tryCandidates Memory.surroundings file (file.fileName?.getD file.text) rest
            broken w₁ = .ok answer w' →
          ∃ before x after, id :: rest = before ++ x :: after ∧
            (∀ y ∈ before, w₀.outside.offers file y = false) ∧
            w₀.outside.mentions x (file.fileName?.getD file.text) = true ∧ x.kind = .project ∧
            ∃ y : Identity, ReflTransGen w₀.outside.References x y ∧ y.location = n := by
        intro w₁ broken hoffers hs hn₁ hrun₁
        obtain ⟨before, x, after, hsplit, hbefore, hx⟩ := ih hrest hs hrun₁ hn₁
        refine ⟨id :: before, x, after, by rw [hsplit]; rfl, fun y hy => ?_, hx⟩
        rcases List.mem_cons.mp hy with rfl | hy
        · exact hoffers
        · exact hbefore y hy
      cases h.turn hw₀ hid file rest broken with
      | passedOver _ offers goes => exact hlater offers h hn (goes.symm.trans hrun)
      | compiles r w₁ mentions _ resolves _ _ goes =>
          cases goes.symm.trans hrun
          obtain ⟨hk, hx⟩ := h.cracked_reached hid.wellFormed resolves hn
          exact ⟨[], id, rest, rfl, by simp, mentions, hk, hx⟩
      | inVain r w₁ mentions offers resolves searched _ goes =>
          by_cases hfirst : w₁.outside.cracksOf n = w.outside.cracksOf n
          · exact hlater offers searched (fun heq => hn (heq.trans hfirst)) (goes.symm.trans hrun)
          · obtain ⟨hk, hx⟩ := h.cracked_reached hid.wellFormed resolves hfirst
            exact ⟨[], id, rest, rfl, by simp, mentions, hk, hx⟩

/-! ## Asking for an owner -/

/-- `id` is a known project without a result whose text mentions the name of `file`, and no other
file that would own `file` is tried before it. -/
structure Workspace.TriedInTime (w : Workspace Memory) (file : Location)
    (id : Identity) : Prop where
  known : id ∈ w.index.projects
  project : id.kind = .project
  unresolved : w.cache.peek id.location = none
  mentions : Act.mentionsName Memory.surroundings id (file.fileName?.getD file.text) w = .ok true w
  inTime : ∀ other, w.WouldOwn file other → other = id ∨ w.index.Tries id other

/-- A file that is a script, or that some result in the map compiles, is found without
cracking anything. -/
theorem ownerOf_cracks_nothing {file : Location} {answer : Except (List Diagnostic) Resolution}
    (hw : w.Quiet) (ha : w.Authored) (ho : w.index.InOrder) (hproper : file.Proper)
    (h : Act.ownerOf Memory.surroundings file w = .ok answer w')
    (hfound : Kind.ofPath? file.path = some .script ∨ ∃ id, w.Owns file id) (n : Location) :
    w'.outside.cracksOf n = w.outside.cracksOf n := by
  by_cases hk : Kind.ofPath? file.path = some .script
  · have hid : (⟨file, .script⟩ : Identity).WellFormed := ⟨hproper, hk⟩
    obtain ⟨r, w₁, hr, hs⟩ := resolve_returns hid hw.tidy hw.idle.not_busy
    cases (ownerOf_eq_surface hproper hk hr).symm.trans h
    exact hs.script_cracks hid (by simp) hw.tidy
  · obtain ⟨id, hown⟩ := hfound.resolve_left hk
    cases hr : Act.resolvedOwner? w.cache w.index.projects file with
    | some r =>
        cases (ownerOf_resolved hw ha ho hk hr).1.symm.trans h
        rfl
    | none => exact absurd hown (not_owns_of_resolvedOwner?_eq_none hr id)

/-- Otherwise what is cracked is reached from a candidate that is tried in time. -/
theorem ownerOf_cracks {file : Location} {answer : Except (List Diagnostic) Resolution}
    (hw : w.Quiet) (ha : w.Authored) (ho : w.index.InOrder) (hproper : file.Proper)
    (h : Act.ownerOf Memory.surroundings file w = .ok answer w') {n : Location}
    (hn : w'.outside.cracksOf n ≠ w.outside.cracksOf n) :
    ∃ id, w.TriedInTime file id ∧ ∃ x : Identity,
      ReflTransGen w.outside.References id x ∧ x.location = n := by
  have hk : Kind.ofPath? file.path ≠ some .script := fun hk =>
    hn (ownerOf_cracks_nothing hw ha ho hproper h (Or.inl hk) n)
  have hnone : Act.resolvedOwner? w.cache w.index.projects file = none := by
    refine Option.eq_none_iff_forall_ne_some.mpr fun r hr => ?_
    obtain ⟨id, hfirst, -⟩ := resolvedOwner?_eq_some ho hr
    exact hn (ownerOf_cracks_nothing hw ha ho hproper h (Or.inr ⟨id, hfirst.1⟩) n)
  have hnothing : ∀ r : Resolution, none = some r → r.Explains := nofun
  obtain ⟨found, w₁, hrun, -⟩ :=
    tryCandidates_finds hw file (fun id => hw.candidate ho) (.refl hw) hnothing
  cases (ownerOf_eq_tried hk hnone hrun).symm.trans h
  obtain ⟨before, id, after, hsplit, hbefore, hmentions, hproject, hx⟩ :=
    tryCandidates_cracks hw file (fun id => hw.candidate ho) (.refl hw) hrun hn
  have hid : id ∈ Act.candidates w.cache w.index := by simp [hsplit]
  obtain ⟨hknown, hunresolved⟩ := Act.mem_candidates.mp hid
  refine ⟨id, ⟨hknown, hproject, hunresolved, by rw [mentionsName_eq, hmentions],
    fun other hwould => ?_⟩, hx⟩
  -- who would own the file is not among those before, and the candidates are in the order in
  -- which they are tried
  obtain ⟨hother, hoffers⟩ := (hw.wouldOwn_iff ho).mp hwould
  rw [hsplit] at hother
  rcases List.mem_append.mp hother with hm | hm
  · cases (hbefore other hm).symm.trans hoffers
  · rcases List.mem_cons.mp hm with rfl | hm
    · exact Or.inl rfl
    · have hpairwise := Act.pairwise_candidates w.cache ho
      rw [hsplit] at hpairwise
      obtain ⟨-, hfrom, -⟩ := List.pairwise_append.mp hpairwise
      exact Or.inr ((List.pairwise_cons.mp hfrom).1 other hm)

end

/-- **The search for an owner is lazy.** After any operations, the owner of a file is asked for and
an answer comes. If the file is a script, or a known file has a result that compiles it, nothing is
cracked. In any case a project that is cracked is reached along references of the table, possibly in
no step, from a known project that had no result and whose text mentions the name of the file, and
this project does not come after the first one that turns out to compile the file. -/
theorem owner_lazy (m : Memory) (ops : List Operation) :
    ∃ w, Operation.runAll ops (.fresh m) = .ok () w ∧ ∀ source : Path, ∃ answer w',
      Act.owner Memory.surroundings source w = .ok answer w' ∧
      ((Kind.ofPath? (Memory.locate source).path = some .script ∨
        ∃ id, w.Owns (Memory.locate source) id) →
        ∀ n, w'.outside.cracksOf n = w.outside.cracksOf n) ∧
      ∀ n, w'.outside.cracksOf n ≠ w.outside.cracksOf n →
        ∃ id, w.TriedInTime (Memory.locate source) id ∧
          ∃ x : Identity, ReflTransGen w.outside.References id x ∧ x.location = n := by
  obtain ⟨w, hrun, hw, ho, ha⟩ :=
    Operation.runAll_keeps (P := fun w => w.index.InOrder ∧ w.Authored) m ops
    ⟨.empty, .fresh m⟩ fun _ _ _ hw hop ⟨ho, ha⟩ =>
      ⟨Operation.inOrder hw hop ho, Operation.authored hw hop ha⟩
  refine ⟨w, hrun, fun source => ?_⟩
  have hproper : (Memory.locate source).Proper := Location.reach_proper Location.root_proper source
  obtain ⟨answer, w', h, -⟩ := ownerOf_answers hw ha ho hproper
  exact ⟨answer, w', Act.bind_ok rfl h, ownerOf_cracks_nothing hw ha ho hproper h,
    fun n hn => ownerOf_cracks hw ha ho hproper h hn⟩

end FSharpWorkspace
