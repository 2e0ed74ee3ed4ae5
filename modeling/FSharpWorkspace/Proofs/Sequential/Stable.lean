import FSharpWorkspace.Proofs.Sequential.Owners
/-!
# Whether an owner stays

An owner that was found for a file has its result in the map, and while the workspace is told
nothing, the result stays there and its file stays known (`Operation.runAll_lasts`). So nobody is
tried again for the file. But answering a question may resolve another known file that compiles it,
and among those that have a result the one with the least place is the owner. So the owner stays
exactly as long as nobody before it compiles the file too (`owner_stable`).
-/

set_option autoImplicit false

namespace FSharpWorkspace

/-! ## What is kept between operations -/

/-- What every operation keeps: nothing is in progress, known files are in order, and results were
made of what was there at some moment. -/
structure Workspace.Settled (w : Workspace Memory) : Prop where
  quiet : w.Quiet
  inOrder : w.index.InOrder
  authored : w.Authored

/-- What is known in `w` is known in `w'`, and results in the map of `w` are in that of `w'`. -/
structure Lasts (w w' : Workspace Memory) : Prop where
  index : w'.index = w.index
  peek : ∀ l r, w.cache.peek l = some r → w'.cache.peek l = some r

section

variable {w w₁ w' : Workspace Memory} {file : Location} {o r : Resolution} {id : Identity}

theorem Workspace.Settled.fresh (m : Memory) : (Workspace.fresh m).Settled :=
  ⟨.fresh m, .empty, .fresh m⟩

theorem Lasts.refl (w : Workspace Memory) : Lasts w w := ⟨rfl, fun _ _ h => h⟩

theorem Lasts.trans (h : Lasts w w₁) (h' : Lasts w₁ w') : Lasts w w' :=
  ⟨h'.index.trans h.index, fun l r hr => h'.peek l r (h.peek l r hr)⟩

theorem Fetches.lasts (h : Fetches Memory.surroundings w w') (hw : w.Tidy) : Lasts w w' :=
  ⟨h.index, fun _ _ hr => (h.still hw).peek hw hr⟩

theorem Operation.settled {op : Operation} (hw : w.Settled)
    (h : op.run w = .ok () w') : w'.Settled :=
  ⟨op.quiet hw.quiet h, op.inOrder hw.quiet h hw.inOrder, op.authored hw.quiet h hw.authored⟩

theorem Operation.runAll_settled {ops : List Operation} (hw : w.Settled)
    (h : runAll ops w = .ok () w') :
    w'.Settled := by
  induction ops generalizing w with
  | nil =>
      obtain ⟨-, rfl⟩ := Act.pure_eq_ok.mp h
      exact hw
  | cons op ops ih =>
      obtain ⟨_, w₁, hop, hrest⟩ := Act.bind_eq_ok.mp h
      exact ih (Operation.settled hw hop) hrest

/-- Only a change that the workspace is told of takes something away. -/
theorem Operation.lasts {op : Operation} (hw : w.Quiet) (h : op.run w = .ok () w')
    (htold : ∀ c, op ≠ .tell c) :
    Lasts w w' := by
  cases op with
  | ask q => exact (q.fetches surroundings_mild hw h).lasts hw.tidy
  | tell c => exact absurd rfl (htold c)
  | edit p report =>
      cases h
      exact ⟨rfl, fun _ _ hr => hr⟩
  | write p content =>
      cases h
      exact ⟨rfl, fun _ _ hr => hr⟩
  | remove p =>
      cases h
      exact ⟨rfl, fun _ _ hr => hr⟩

theorem Operation.runAll_lasts {ops : List Operation} (hw : w.Settled)
    (htold : ∀ c, Operation.tell c ∉ ops) :
    ∃ w', runAll ops w = .ok () w' ∧ w'.Settled ∧ Lasts w w' := by
  induction ops generalizing w with
  | nil => exact ⟨w, rfl, hw, .refl w⟩
  | cons op ops ih =>
      obtain ⟨w₁, h₁⟩ := op.returns hw.quiet
      have hlasts := Operation.lasts hw.quiet h₁ fun c hc => htold c (by simp [hc])
      obtain ⟨w', h', hw', hlasts'⟩ :=
        ih (Operation.settled hw h₁) fun c hc => htold c (by simp [hc])
      exact ⟨w', Act.bind_ok h₁ h', hw', hlasts.trans hlasts'⟩

/-! ## Owners that were found -/

/-- The result `o` is in the map and compiles `file`, and nothing is wrong with it. It is that of a
known file, or of `file` itself if that is a script. -/
structure Workspace.Found (w : Workspace Memory) (file : Location) (o : Resolution) : Prop where
  peek : w.cache.peek o.id.location = some o
  compiles : file ∈ o.sources
  fine : o.diagnostics = []
  script : Kind.ofPath? file.path = some .script → o.id = ⟨file, .script⟩
  known : Kind.ofPath? file.path ≠ some .script → o.id ∈ w.index.projects

theorem Workspace.Found.lasts (h : w.Found file o) (hl : Lasts w w') : w'.Found file o where
  peek := hl.peek _ _ h.peek
  compiles := h.compiles
  fine := h.fine
  script := h.script
  known hk := by
    rw [hl.index]
    exact h.known hk

theorem Workspace.Found.surface (h : w.Found file o) : Act.surface o = .ok o :=
  Act.surface_eq_ok.mpr ⟨h.fine, rfl⟩

theorem Workspace.Found.owns (h : w.Found file o)
    (hk : Kind.ofPath? file.path ≠ some .script) : w.Owns file o.id :=
  ⟨h.known hk, o, h.peek, h.compiles⟩

/-- The result in the map for a file is called after it. -/
theorem Workspace.Authored.id_eq (ha : w.Authored) (hid : id.WellFormed)
    (hr : w.cache.peek id.location = some r) :
    r.id = id := by
  obtain ⟨m, hm⟩ := ha _ r hr
  exact hm.wellFormed.eq hid hm.place

/-- Asking for an owner resolves some files. -/
theorem ownerOf_fetches {answer : Except (List Diagnostic) Resolution} (hw : w.Quiet)
    (h : Act.ownerOf Memory.surroundings file w = .ok answer w') :
    Fetches Memory.surroundings w w' :=
  ((fetching_lawful surroundings_mild).ownerOf file).goes hw answer w' h

/-- An owner of a file that is no script is a known file. -/
theorem ownerOf_known (hw : w.Settled) (hk : Kind.ofPath? file.path ≠ some .script)
    (h : Act.ownerOf Memory.surroundings file w = .ok (.ok o) w') :
    ∃ id ∈ w.index.projects, w'.cache.peek id.location = some o := by
  cases hr : Act.resolvedOwner? w.cache w.index.projects file with
  | some r =>
      injection (ownerOf_resolved hw.quiet hw.authored hw.inOrder hk hr).1.symm.trans h
        with hsurface hsame
      obtain ⟨-, rfl⟩ := Act.surface_eq_ok.mp hsurface
      obtain ⟨id, hfirst, hpeek, -⟩ := resolvedOwner?_eq_some hw.inOrder hr
      exact ⟨id, hfirst.1.1, hsame ▸ hpeek⟩
  | none =>
      have hnothing : ∀ r : Resolution, none = some r → r.Explains := fun r h => by cases h
      obtain ⟨found, w₁, hrun, -, hfound⟩ := tryCandidates_finds hw.quiet file
        (fun id => hw.quiet.candidate hw.inOrder) (.refl hw.quiet) hnothing
      -- an answer without diagnostics is that of a candidate
      injection (ownerOf_eq_tried hk hr hrun).symm.trans h with hanswer hsame
      subst hsame
      cases hfind : (Act.candidates w.cache w.index).find? (w.outside.offers file) with
      | some id =>
          rw [hfind] at hfound
          obtain ⟨r, rfl, hpeek⟩ := hfound
          obtain ⟨-, rfl⟩ := Act.surface_eq_ok.mp hanswer
          exact ⟨id, Act.candidates_subset (List.mem_of_find?_eq_some hfind), hpeek⟩
      | none =>
          rw [hfind] at hfound
          obtain ⟨broken, rfl, -⟩ := hfound
          cases broken with
          | some r => cases hanswer
          | none => cases hanswer

/-- An owner that is returned is found. -/
theorem ownerOf_found (hw : w.Settled) (hproper : file.Proper)
    (h : Act.ownerOf Memory.surroundings file w = .ok (.ok o) w') : w'.Found file o := by
  obtain ⟨answer, w₁, h₁, hanswer⟩ := ownerOf_answers hw.quiet hw.authored hw.inOrder hproper
  cases h₁.symm.trans h
  obtain ⟨hcompiles, hfine⟩ := hanswer.ok o rfl
  have hf := ownerOf_fetches hw.quiet h
  have ha := hw.authored.fetches hw.quiet hf
  by_cases hk : Kind.ofPath? file.path = some .script
  · have hid : (⟨file, .script⟩ : Identity).WellFormed := ⟨hproper, hk⟩
    obtain ⟨r, w₂, hr, -, hpeek⟩ := (Searched.refl hw.quiet).resolve hw.quiet hid
    injection (ownerOf_eq_surface hproper hk hr).symm.trans h with hsurface hsame
    obtain ⟨-, rfl⟩ := Act.surface_eq_ok.mp hsurface
    subst hsame
    have hrid := ha.id_eq hid hpeek
    exact ⟨hrid ▸ hpeek, hcompiles, hfine, fun _ => hrid, absurd hk⟩
  · obtain ⟨id, hid, hpeek⟩ := ownerOf_known hw hk h
    obtain rfl := ha.id_eq (hw.quiet.tidy.known id hid) hpeek
    refine ⟨hpeek, hcompiles, hfine, fun hs => absurd hs hk, fun _ => ?_⟩
    rw [hf.index]
    exact hid

/-! ## Owners that are found again -/

/-- A script that was found is found again. -/
theorem Workspace.Found.again_script (h : w.Found file o) (hw : w.Settled) (hproper : file.Proper)
    (hk : Kind.ofPath? file.path = some .script) :
    ∃ w', Act.ownerOf Memory.surroundings file w = .ok (.ok o) w' := by
  have hid : (⟨file, .script⟩ : Identity).WellFormed := ⟨hproper, hk⟩
  obtain ⟨r, w', hr, hs, hpeek⟩ := (Searched.refl hw.quiet).resolve hw.quiet hid
  -- the result is still in the map, so this is the one that is returned
  have hpeek' := hs.still.peek hw.quiet.tidy h.peek
  rw [h.script hk] at hpeek'
  cases hpeek.symm.trans hpeek'
  have hagain := ownerOf_eq_surface hproper hk hr
  rw [h.surface] at hagain
  exact ⟨w', hagain⟩

/-- The owner that was found is that of a known file. Then the first owner with a result is this
one, or one before it. -/
theorem Workspace.Found.again_known (h : w.Found file o) (hw : w.Settled) (hproper : file.Proper)
    (hk : Kind.ofPath? file.path ≠ some .script) :
    ∃ answer w' id r, Act.ownerOf Memory.surroundings file w = .ok answer w' ∧
      IsFirst Identity.Before (w.Owns file) id ∧ w.cache.peek id.location = some r ∧ r.id = id ∧
      answer = Act.surface r ∧ (id = o.id ∧ r = o ∨ id.Before o.id) := by
  obtain ⟨answer, w', ha, hanswer⟩ := ownerOf_answers hw.quiet hw.authored hw.inOrder hproper
  obtain ⟨id, r, hfirst, hr, hsurface⟩ := hanswer.resolved hk ⟨_, h.owns hk⟩
  have hrid := hw.authored.id_eq (hw.quiet.tidy.known id hfirst.1.1) hr
  refine ⟨answer, w', id, r, ha, hfirst, hr, hrid, hsurface, ?_⟩
  rcases hfirst.2 _ (h.owns hk) with hsame | hbefore
  · refine Or.inl ⟨hsame.symm, ?_⟩
    rw [← hsame, h.peek] at hr
    exact (Option.some.inj hr).symm
  · exact Or.inr hbefore

end

/-- **Whether an owner stays.** An owner was found for a file, and from then on the workspace is
told nothing, whatever it is asked and whatever is edited. When it is asked for the owner again, an
answer comes. It is the same instance exactly if the file is a script or no known file before the
owner's has a result that compiles the file too. Otherwise the answer comes from the first known
file with such a result. -/
theorem owner_stable (m : Memory) (before later : List Operation) (source : Path)
    {w w₁ : Workspace Memory} {o : Resolution}
    (hbefore : Operation.runAll before (.fresh m) = .ok () w)
    (hfound : Act.owner Memory.surroundings source w = .ok (.ok o) w₁)
    (hlater : ∀ c, Operation.tell c ∉ later) :
    ∃ w₂ answer w₃, Operation.runAll later w₁ = .ok () w₂ ∧
      Act.owner Memory.surroundings source w₂ = .ok answer w₃ ∧
      (answer = .ok o ↔ Kind.ofPath? (Memory.locate source).path = some .script ∨
        ¬ ∃ id, w₂.Owns (Memory.locate source) id ∧ id.Before o.id) ∧
      (answer ≠ .ok o → ∃ id r, IsFirst Identity.Before (w₂.Owns (Memory.locate source)) id ∧
        id.Before o.id ∧ w₂.cache.peek id.location = some r ∧ answer = Act.surface r) := by
  have hw : w.Settled := Operation.runAll_settled (.fresh m) hbefore
  have hproper : (Memory.locate source).Proper := Location.reach_proper Location.root_proper source
  have hasked : (Operation.ask (.owner source)).run w = .ok () w₁ := discard_ok hfound
  obtain ⟨w₂, hrun, hw₂, hlasts⟩ := Operation.runAll_lasts (Operation.settled hw hasked) hlater
  obtain ⟨file, w', hplace, hof⟩ := Act.bind_eq_ok.mp hfound
  cases hplace
  have hstays : w₂.Found (Memory.locate source) o := (ownerOf_found hw hproper hof).lasts hlasts
  by_cases hk : Kind.ofPath? (Memory.locate source).path = some .script
  · obtain ⟨w₃, hagain⟩ := hstays.again_script hw₂ hproper hk
    exact ⟨w₂, _, w₃, hrun, Act.bind_ok rfl hagain, iff_of_true rfl (Or.inl hk),
      fun hne => absurd rfl hne⟩
  · obtain ⟨answer, w₃, id, r, hagain, hfirst, hr, hrid, hanswer, hcases⟩ :=
      hstays.again_known hw₂ hproper hk
    refine ⟨w₂, answer, w₃, hrun, Act.bind_ok rfl hagain, ?_⟩
    rcases hcases with ⟨rfl, rfl⟩ | hearlier
    · -- the owner is the first one
      have hsame : answer = .ok r := hanswer.trans hstays.surface
      refine ⟨iff_of_true hsame (Or.inr ?_), fun hne => absurd hsame hne⟩
      rintro ⟨id, hid, hlt⟩
      rcases hfirst.2 id hid with rfl | hgt
      · exact hlt.ne rfl
      · exact hgt.not_before hlt
    · -- another one is first, and its result has another name
      have hne : answer ≠ .ok o := by
        intro hsame
        obtain ⟨-, rfl⟩ := Act.surface_eq_ok.mp (hanswer.symm.trans hsame)
        exact hearlier.ne hrid.symm
      refine ⟨iff_of_false hne ?_, fun _ => ⟨id, r, hfirst, hearlier, hr, hanswer⟩⟩
      rintro (hs | hnone)
      · exact hk hs
      · exact hnone ⟨id, hfirst.1, hearlier⟩

/-! ## A file that two projects compile -/

def Workspace.ownerOf? (w : Workspace Memory) (source : Path) : Option Resolution :=
  ((Act.owner Memory.surroundings source).value? w).bind Except.toOption

def Workspace.askedOwner (w : Workspace Memory) (source : Path) : Workspace Memory :=
  (Act.owner Memory.surroundings source).after w

theorem Workspace.owner_eq {w : Workspace Memory} {source : Path} {o : Resolution}
    (h : w.ownerOf? source = some o) :
    Act.owner Memory.surroundings source w = .ok (.ok o) (w.askedOwner source) := by
  obtain ⟨answer, hanswer, ho⟩ := Option.bind_eq_some_iff.mp h
  cases answer with
  | ok r =>
      cases ho
      exact Act.eq_ok_of_value? hanswer
  | error ds => cases ho

/-- A project is written and can be cracked, and the workspace is told. -/
def Operation.authoring (p text : String) (report : CrackReport) : List Operation :=
  [.write ⟨p⟩ text, .edit ⟨p⟩ report, .tell (.told .created ⟨p⟩)]

/-- Two projects compile `s.fs`. That in a solution is tried first, and references the other one. -/
def sharing : List Operation :=
  Operation.authoring "/A.fsproj" "<Compile Include=\"s.fs\"/>" { sources := [⟨"s.fs"⟩] } ++
    Operation.authoring "/B.fsproj"
      "<Compile Include=\"s.fs\"/><ProjectReference Include=\"A.fsproj\"/>"
      { sources := [⟨"s.fs"⟩], projectReferences := [⟨"A.fsproj"⟩] } ++
    [.write ⟨"/All.sln"⟩ "Project(\"\") = \"B\", \"B.fsproj\", \"\"",
      .tell (.solutionUpdated ⟨"/All.sln"⟩)]

def shared : Workspace Memory := (Operation.runAll sharing).after (.fresh .empty)

set_option maxRecDepth 10000 in
theorem sharing_run : Operation.runAll sharing (.fresh .empty) = .ok () shared :=
  Act.eq_ok_of_returns (by decide +kernel)

set_option maxRecDepth 10000 in
/-- First the project in the solution is found. -/
theorem shared_owner :
    ∃ o, shared.ownerOf? ⟨"/s.fs"⟩ = some o ∧ o.id.location = Memory.locate ⟨"/B.fsproj"⟩ := by
  have hany : (shared.ownerOf? ⟨"/s.fs"⟩).any (·.id.location = Memory.locate ⟨"/B.fsproj"⟩) =
      true := by
    decide +kernel
  obtain ⟨o, ho, hplace⟩ := (Option.any_eq_true _ _).mp hany
  exact ⟨o, ho, of_decide_eq_true hplace⟩

theorem owner_stable_shared : ∃ o w₂ answer w₃,
    Operation.runAll sharing (.fresh .empty) = .ok () shared ∧
      Act.owner Memory.surroundings ⟨"/s.fs"⟩ shared = .ok (.ok o) (shared.askedOwner ⟨"/s.fs"⟩) ∧
      Operation.runAll [.ask (.options ⟨"/B.fsproj"⟩)] (shared.askedOwner ⟨"/s.fs"⟩) = .ok () w₂ ∧
      Act.owner Memory.surroundings ⟨"/s.fs"⟩ w₂ = .ok answer w₃ ∧
      (answer = .ok o ↔ ¬ ∃ id, w₂.Owns (Memory.locate ⟨"/s.fs"⟩) id ∧ id.Before o.id) := by
  obtain ⟨o, ho, -⟩ := shared_owner
  have hfound := Workspace.owner_eq ho
  obtain ⟨w₂, answer, w₃, hrun, hagain, hiff, -⟩ :=
    owner_stable .empty sharing [.ask (.options ⟨"/B.fsproj"⟩)]
    ⟨"/s.fs"⟩ sharing_run hfound (by simp)
  have hk : Kind.ofPath? (Memory.locate ⟨"/s.fs"⟩).path ≠ some .script := by decide +kernel
  exact ⟨o, w₂, answer, w₃, sharing_run, hfound, hrun, hagain, hiff.trans (or_iff_right hk)⟩

set_option maxRecDepth 10000 in
/-- When the owner is asked for again, with nothing in between, the project that was resolved as a
reference is found: it has a result now, and its place comes first. -/
theorem owner_unstable : ∃ o o' w',
    Operation.runAll sharing (.fresh .empty) = .ok () shared ∧
      Act.owner Memory.surroundings ⟨"/s.fs"⟩ shared = .ok (.ok o) (shared.askedOwner ⟨"/s.fs"⟩) ∧
      Act.owner Memory.surroundings ⟨"/s.fs"⟩ (shared.askedOwner ⟨"/s.fs"⟩) = .ok (.ok o') w' ∧
      o' ≠ o := by
  obtain ⟨o, ho, hplace⟩ := shared_owner
  have hany : ((shared.askedOwner ⟨"/s.fs"⟩).ownerOf? ⟨"/s.fs"⟩).any
      (·.id.location = Memory.locate ⟨"/A.fsproj"⟩) = true := by
    decide +kernel
  obtain ⟨o', ho', hplace'⟩ := (Option.any_eq_true _ _).mp hany
  refine ⟨o, o', _, sharing_run, Workspace.owner_eq ho, Workspace.owner_eq ho', ?_⟩
  rintro rfl
  have hsame := (of_decide_eq_true hplace').symm.trans hplace
  have hne : Memory.locate ⟨"/A.fsproj"⟩ ≠ Memory.locate ⟨"/B.fsproj"⟩ := by decide +kernel
  exact hne hsame

end FSharpWorkspace
