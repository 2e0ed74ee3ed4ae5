import FSharpWorkspace.Proofs.Sequential.Stable
/-!
# Candidates that fail

If nobody turns out to compile a file, the search answers with what is wrong with the first
candidate whose result has no sources and says that something is wrong (`tryCandidates_remembers`).
A project that fails to crack has such a result. But the search only tries files without a result,
so a failing project is heard of only the first time (`owner_failure`); when it was resolved before,
the answer is that nobody compiles the file (`owner_unreported`).
-/

set_option autoImplicit false

namespace FSharpWorkspace

/-! ## What went wrong -/

theorem CrackReport.result_of_error {report : CrackReport} {error : String}
    (h : report.error = some error) (id : Identity) (stamp : Nat) (loadTime : LoadTime)
    (linked : Act.Linked) :
    report.result id stamp loadTime linked =
      .failed stamp id ⟨.crackFailed, id.location.path, error⟩ loadTime := by
  rw [CrackReport.result, h]

/-- A result reports that a crack failed only if it did. -/
theorem CrackReport.error_of_crackFailed {report : CrackReport} {id : Identity} {stamp : Nat}
    {loadTime : LoadTime} {linked : Act.Linked} {d : Diagnostic}
    (hd : d ∈ (report.result id stamp loadTime linked).diagnostics) (hk : d.kind = .crackFailed) :
    ∃ error, report.error = some error ∧ d = ⟨.crackFailed, id.location.path, error⟩ := by
  cases herror : report.error with
  | some error =>
      rw [CrackReport.result_of_error herror] at hd
      exact ⟨error, rfl, List.mem_singleton.mp hd⟩
  | none =>
      -- otherwise there can only be a circle
      rw [CrackReport.result, herror] at hd
      dsimp only at hd
      split at hd
      · cases hd
      · cases List.mem_singleton.mp hd
        cases hk

section

variable {m : Memory} {n : Location} {r : Resolution} {error : String}

/-- The result of a project that fails to crack has no sources, and says what the cracker said. -/
theorem Resolution.Authored.failed (h : r.Authored m n) (hk : r.id.kind = .project)
    (he : (m.report r.id.location).error = some error) :
    r.sources = [] ∧ r.diagnostics = [⟨.crackFailed, r.id.location.path, error⟩] := by
  obtain ⟨linked, hr⟩ := h.project hk
  rw [CrackReport.result_of_error he] at hr
  exact ⟨congrArg Resolution.sources hr, congrArg Resolution.diagnostics hr⟩

/-- Only a project that fails to crack has a result that says so. -/
theorem Resolution.Authored.error_of_crackFailed (h : r.Authored m n)
    (hk : r.id.kind.isResolvable = true) {d : Diagnostic} (hd : d ∈ r.diagnostics)
    (hkind : d.kind = .crackFailed) :
    r.id.kind = .project ∧ ∃ error, (m.report r.id.location).error = some error ∧
      d = ⟨.crackFailed, r.id.location.path, error⟩ := by
  by_cases hp : r.id.kind = .project
  · obtain ⟨linked, hr⟩ := h.project hp
    rw [hr] at hd
    exact ⟨hp, CrackReport.error_of_crackFailed hd hkind⟩
  · rw [h.script (Kind.eq_script hk hp)] at hd
    cases (scriptResult_diagnostics _ _ _ d hd).symm.trans hkind

end

/-! ## The first one that is broken -/

/-- At most one comes first. -/
theorem IsFirst.eq {α : Type} {before : α → α → Prop} {P : α → Prop} {x y : α}
    (hasymm : ∀ a b, before a b → ¬ before b a) (hx : IsFirst before P x)
    (hy : IsFirst before P y) : x = y := by
  rcases hx.2 y hy.1 with heq | hxy
  · exact heq.symm
  · rcases hy.2 x hx.1 with heq | hyx
    · exact heq
    · exact absurd hyx (hasymm x y hxy)

/-- Of two files at most one is tried before the other. -/
theorem Index.Tries.not_tries {ix : Index} {a b : Identity}
    (h : ix.Tries a b) : ¬ ix.Tries b a := by
  unfold Index.Tries at h ⊢
  split at h
  · next hsame =>
      rw [if_pos hsame.symm]
      exact h.not_before
  · next hne =>
      rw [if_neg (Ne.symm hne)]
      exact fun hb => hne (h.trans hb.symm)

namespace Workspace

/-- The known project `id` mentions the name of `file`, and cracking it fails with `error`. -/
structure FailsFor (w : Workspace Memory) (file : Location) (id : Identity)
    (error : String) : Prop where
  known : id ∈ w.index.projects
  project : id.kind = .project
  mentions : Act.mentionsName Memory.surroundings id (file.fileName?.getD file.text) w = .ok true w
  fails : (w.outside.report id.location).error = some error

/-- `id` is known, has no result in `w`, and mentions the name of `file`; and its result in `w'` has
no sources and says that something is wrong. -/
structure Broken (w w' : Workspace Memory) (file : Location) (id : Identity) : Prop where
  known : id ∈ w.index.projects
  unresolved : w.cache.peek id.location = none
  mentions : Act.mentionsName Memory.surroundings id (file.fileName?.getD file.text) w = .ok true w
  broken : ∃ r, w'.cache.peek id.location = some r ∧ r.sources = [] ∧ r.diagnostics ≠ []

/-- The result in `w'` of a file that mentions the name of `file`, if it counts as a failure. -/
def failure? (w w' : Workspace Memory) (file : Location) (id : Identity) : Option Resolution :=
  if w.outside.mentions id (file.fileName?.getD file.text) then
    (w'.cache.peek id.location).filter fun r => r.sources.isEmpty && r.hasDiagnostics
  else none

end Workspace

section

variable {w₀ w w' : Workspace Memory} {file : Location}

theorem mentionsName_iff {id : Identity} {name : String} :
    Act.mentionsName Memory.surroundings id name w = .ok true w ↔
      w.outside.mentions id name = true := by
  rw [mentionsName_eq]
  constructor
  · intro h
    injection h
  · intro h
    rw [h]

theorem Workspace.failure?_eq_some {id : Identity} {r : Resolution} :
    w.failure? w' file id = some r ↔ w.outside.mentions id (file.fileName?.getD file.text) = true ∧
      w'.cache.peek id.location = some r ∧ r.sources = [] ∧ r.diagnostics ≠ [] := by
  unfold Workspace.failure?
  split
  · next hm => simp [hm, Option.filter_eq_some_iff, Resolution.hasDiagnostics]
  · next hm => simp [hm]

theorem Workspace.broken_iff {id : Identity} :
    w.Broken w' file id ↔ id ∈ Act.candidates w.cache w.index ∧ ∃ r,
      w.failure? w' file id = some r := by
  simp only [Workspace.failure?_eq_some, Act.mem_candidates]
  constructor
  · rintro ⟨hknown, hnone, hm, r, hr⟩
    exact ⟨⟨hknown, hnone⟩, r, mentionsName_iff.mp hm, hr⟩
  · rintro ⟨⟨hknown, hnone⟩, r, hm, hr⟩
    exact ⟨hknown, hnone, mentionsName_iff.mpr hm, r, hr⟩

/-- A search that finds nobody remembers the first failure. All candidates that mention the name are
resolved then. The induction is on the candidates; what is tried later leaves the results of those
before in the map. -/
theorem tryCandidates_remembers (hw₀ : w₀.Quiet) {ids : List Identity}
    (hids : ∀ id ∈ ids, w₀.Candidate id) (h : Searched w₀ w) {broken broken' : Option Resolution}
    (hrun : Act.tryCandidates Memory.surroundings file
      (file.fileName?.getD file.text) ids broken w =
      .ok (.error broken') w') :
    broken' = (broken <|> ids.findSome? (w₀.failure? w' file)) ∧
      ∀ id ∈ ids, w₀.outside.mentions id (file.fileName?.getD file.text) = true →
        ∃ r, w'.cache.peek id.location = some r := by
  induction ids generalizing w broken with
  | nil =>
      obtain ⟨hnobody, -⟩ := Act.pure_eq_ok.mp hrun
      cases hnobody
      exact ⟨by simp, by simp⟩
  | cons id rest ih =>
      have hid := hids id (by simp)
      have hrest := fun x hx => hids x (List.mem_cons_of_mem id hx)
      cases h.turn hw₀ hid file rest broken with
      | passedOver mentions _ goes =>
          obtain ⟨hbroken, hresolved⟩ := ih hrest h (goes.symm.trans hrun)
          have hnone : w₀.failure? w' file id = none := by simp [Workspace.failure?, mentions]
          refine ⟨by rw [hbroken, List.findSome?_cons_of_isNone (by simp [hnone])],
            fun x hx hxm => ?_⟩
          rcases List.mem_cons.mp hx with rfl | hx
          · cases mentions.symm.trans hxm
          · exact hresolved x hx hxm
      | compiles _ _ _ _ _ _ _ goes => cases goes.symm.trans hrun
      | inVain r w₁ mentions _ _ searched peek goes =>
          replace hrun := goes.symm.trans hrun
          have hgoes := ((fetching_lawful surroundings_mild).tryCandidates file _ rest _
            fun x hx => (hrest x hx).wellFormed).goes searched.quiet _ w' hrun
          have hpeek := (hgoes.still searched.quiet.tidy).peek searched.quiet.tidy peek
          obtain ⟨hbroken, hresolved⟩ := ih hrest searched hrun
          refine ⟨?_, fun x hx hxm => ?_⟩
          · rw [hbroken, List.findSome?_cons]
            cases broken with
            | some b => rfl
            | none =>
                unfold Workspace.failure?
                rw [if_pos mentions, hpeek, Option.filter_some]
                split <;> rfl
          · rcases List.mem_cons.mp hx with rfl | hx
            · exact ⟨_, hpeek⟩
            · exact hresolved x hx hxm

/-! ## The answer when nobody compiles a file -/

/-- What an answer to the question who compiles `file` says, if nobody does. It was asked in `w` and
leaves `w'` behind. -/
structure FailureAnswer (w : Workspace Memory) (file : Location)
    (answer : Except (List Diagnostic) Resolution) (w' : Workspace Memory) : Prop where
  /-- The answer is what is wrong with a project that fails to crack exactly if the first
  broken candidate is one. -/
  reported : (∃ id error, w.FailsFor file id error ∧
    answer = .error [⟨.crackFailed, id.location.path, error⟩]) ↔
    ∃ id error, IsFirst w.index.Tries (w.Broken w' file) id ∧ w.FailsFor file id error
  /-- Nobody is said to compile the file exactly if no candidate is broken. -/
  nobody : answer = .error [Act.noOwner file] ↔ ¬ ∃ id, w.Broken w' file id
  /-- A project that fails to crack is a broken candidate exactly if it had no result. -/
  broken : ∀ id error, w.FailsFor file id error →
    (w.Broken w' file id ↔ w.cache.peek id.location = none)

/-- The first failure among the candidates is that of the first broken one. -/
theorem Workspace.isFirst_of_findSome? (ho : w.index.InOrder) {r : Resolution}
    (h : (Act.candidates w.cache w.index).findSome? (w.failure? w' file) = some r) :
    ∃ id, IsFirst w.index.Tries (w.Broken w' file) id ∧ w.failure? w' file id = some r := by
  obtain ⟨before, id, after, hsplit, hid, hbefore⟩ := List.findSome?_eq_some_iff.mp h
  have hmem : id ∈ Act.candidates w.cache w.index := by simp [hsplit]
  refine ⟨id, .of_append (hsplit ▸ Act.pairwise_candidates w.cache ho)
    (Workspace.broken_iff.mpr ⟨hmem, r, hid⟩) (fun x hx hbroken => ?_) fun x hx => hsplit ▸
      (Workspace.broken_iff.mp hx).1, hid⟩
  obtain ⟨-, u, hu⟩ := Workspace.broken_iff.mp hbroken
  cases (hbefore x hx).symm.trans hu

/-- A candidate that fails to crack, and has a result after a search, is broken. -/
theorem Searched.broken (hs : Searched w w') (hw : w.Quiet) (ho : w.index.InOrder) {id : Identity}
    {error : String} (hf : w.FailsFor file id error) (hnone : w.cache.peek id.location = none)
    {r : Resolution} (hr : w'.cache.peek id.location = some r) : w.Broken w' file id := by
  have hid := hw.candidate ho (Act.mem_candidates.mpr ⟨hf.known, hnone⟩)
  obtain ⟨rfl, hmade⟩ := hs.made hid.wellFormed hid.unresolved hr
  obtain ⟨hsources, hdiagnostics⟩ := hmade.failed hf.project hf.fails
  exact ⟨hf.known, hnone, hf.mentions, r, hr, hsources, by simp [hdiagnostics]⟩

/-- The answer is what is wrong with the first broken candidate, or there is none. -/
theorem FailureAnswer.of_searched (hs : Searched w w') (hw : w.Quiet) (ho : w.index.InOrder)
    (hresolved : ∀ id ∈ Act.candidates w.cache w.index,
      w.outside.mentions id (file.fileName?.getD file.text) = true → ∃ r,
      w'.cache.peek id.location = some r) :
    FailureAnswer w file (Act.triedAnswer file
      (.error ((Act.candidates w.cache w.index).findSome? (w.failure? w' file)))) w' := by
  have hfails : ∀ id error, w.FailsFor file id error →
      (w.Broken w' file id ↔ w.cache.peek id.location = none) := by
    refine fun id error hf => ⟨fun hb => hb.unresolved, fun hnone => ?_⟩
    obtain ⟨r, hr⟩ :=
      hresolved id (Act.mem_candidates.mpr ⟨hf.known, hnone⟩) (mentionsName_iff.mp hf.mentions)
    exact hs.broken hw ho hf hnone hr
  cases hfind : (Act.candidates w.cache w.index).findSome? (w.failure? w' file) with
  | none =>
      have hnobody : ¬ ∃ id, w.Broken w' file id := by
        rintro ⟨id, hbroken⟩
        obtain ⟨hid, r, hr⟩ := Workspace.broken_iff.mp hbroken
        cases (List.findSome?_eq_none_iff.mp hfind id hid).symm.trans hr
      refine ⟨⟨?_, ?_⟩, iff_of_true rfl hnobody, hfails⟩
      · rintro ⟨id, error, -, hanswer⟩
        cases hanswer
      · rintro ⟨id, error, hfirst, -⟩
        exact absurd ⟨id, hfirst.1⟩ hnobody
  | some r =>
      obtain ⟨id, hfirst, hid⟩ := Workspace.isFirst_of_findSome? ho hfind
      obtain ⟨-, hpeek, hsources, hwrong⟩ := Workspace.failure?_eq_some.mp hid
      have hcandidate := hw.candidate ho (Workspace.broken_iff.mp hfirst.1).1
      obtain ⟨rfl, hmade⟩ := hs.made hcandidate.wellFormed hcandidate.unresolved hpeek
      refine ⟨⟨?_, ?_⟩, iff_of_false ?_ (not_not_intro ⟨r.id, hfirst.1⟩), hfails⟩
      · rintro ⟨x, error, -, hanswer⟩
        have hd : r.diagnostics = [⟨.crackFailed, x.location.path, error⟩] :=
          Except.error.inj hanswer
        obtain ⟨hproject, e, he, -⟩ := hmade.error_of_crackFailed hcandidate.resolvable
          (d := ⟨.crackFailed, x.location.path, error⟩) (by simp [hd]) rfl
        exact ⟨r.id, e, hfirst, hfirst.1.known, hproject, hfirst.1.mentions, he⟩
      · rintro ⟨x, error, hx, hf⟩
        obtain rfl := hx.eq (fun _ _ => Index.Tries.not_tries) hfirst
        exact ⟨r.id, error, hf, congrArg Except.error (hmade.failed hf.project hf.fails).2⟩
      · intro hanswer
        have hd : r.diagnostics = [Act.noOwner file] := Except.error.inj hanswer
        exact hmade.diagnostic_kind hcandidate.resolvable (Act.noOwner file) (by simp [hd]) rfl

/-- If nobody compiles a file, all candidates are tried. -/
theorem ownerOf_failure (hw : w.Settled) (hk : Kind.ofPath? file.path ≠ some .script)
    (hn : ¬ ∃ id, w.Owns file id) (ht : ¬ ∃ id, w.WouldOwn file id) :
    ∃ answer w', Act.ownerOf Memory.surroundings file w = .ok answer w' ∧
      FailureAnswer w file answer w' := by
  have hr : Act.resolvedOwner? w.cache w.index.projects file = none := by
    refine Option.eq_none_iff_forall_ne_some.mpr fun r hr => ?_
    obtain ⟨id, hfirst, -⟩ := resolvedOwner?_eq_some hw.inOrder hr
    exact hn ⟨id, hfirst.1⟩
  have hfind : (Act.candidates w.cache w.index).find? (w.outside.offers file) = none := by
    refine Option.eq_none_iff_forall_ne_some.mpr fun id hid => ?_
    exact ht ⟨id, (hw.quiet.isFirst_of_find? hw.inOrder hid).1⟩
  have hcandidates : ∀ id ∈ Act.candidates w.cache w.index, w.Candidate id :=
    fun id => hw.quiet.candidate hw.inOrder
  have hnothing : ∀ r : Resolution, none = some r → r.Explains := nofun
  obtain ⟨found, w', hrun, hs, hfound⟩ :=
    tryCandidates_finds hw.quiet file hcandidates (.refl hw.quiet) hnothing
  rw [hfind] at hfound
  obtain ⟨broken, rfl, -⟩ := hfound
  obtain ⟨hbroken, hresolved⟩ := tryCandidates_remembers hw.quiet hcandidates (.refl hw.quiet) hrun
  refine ⟨_, w', ownerOf_eq_tried hk hr hrun, ?_⟩
  rw [show broken = _ from hbroken]
  exact .of_searched hs hw.quiet hw.inOrder hresolved

end

/-- **Candidates that fail.** After any operations, the owner of a file that is no script is asked
for, and neither does a known result compile it nor would a candidate. Then an answer comes. It is
what is wrong with a project that mentions the name of the file and fails to crack, exactly if the
first candidate that turns out to be broken is such a project. It says that nobody compiles the file
exactly if no candidate turns out to be broken. A project that fails to crack does so exactly if it
had no result when the question came. -/
theorem owner_failure (m : Memory) (ops : List Operation) (source : Path) {w : Workspace Memory}
    (hrun : Operation.runAll ops (.fresh m) = .ok () w)
    (hk : Kind.ofPath? (Memory.locate source).path ≠ some .script)
    (hn : ¬ ∃ id, w.Owns (Memory.locate source) id)
    (ht : ¬ ∃ id, w.WouldOwn (Memory.locate source) id) :
    ∃ answer w', Act.owner Memory.surroundings source w = .ok answer w' ∧
      FailureAnswer w (Memory.locate source) answer w' := by
  have hw : w.Settled := Operation.runAll_settled (.fresh m) hrun
  obtain ⟨answer, w', h, hanswer⟩ := ownerOf_failure hw hk hn ht
  exact ⟨answer, w', Act.bind_ok rfl h, hanswer⟩

/-! ## Projects that fail -/

/-- Whether a file is found neither in the map nor among the candidates. -/
def Workspace.lacksOwner (w : Workspace Memory) (file : Location) : Bool :=
  (Act.resolvedOwner? w.cache w.index.projects file).isNone &&
    ((Act.candidates w.cache w.index).find? (w.outside.offers file)).isNone

theorem Workspace.Settled.nobody {w : Workspace Memory} (hw : w.Settled) (file : Location)
    (h : w.lacksOwner file = true) : (¬ ∃ id, w.Owns file id) ∧ ¬ ∃ id, w.WouldOwn file id := by
  obtain ⟨hresolved, htried⟩ := Bool.and_eq_true_iff.mp h
  exact ⟨fun ⟨id, hid⟩ =>
    not_owns_of_resolvedOwner?_eq_none (Option.isNone_iff_eq_none.mp hresolved) id hid,
    hw.quiet.not_wouldOwn_of_find? hw.inOrder (Option.isNone_iff_eq_none.mp htried)⟩

/-- What is said to be wrong when the owner of a file is asked for. -/
def Workspace.complaint? (w : Workspace Memory) (source : Path) : Option (List Diagnostic) :=
  ((Act.owner Memory.surroundings source).value? w).bind fun
    | .ok _ => none
    | .error ds => some ds

theorem Workspace.owner_eq_error {w : Workspace Memory} {source : Path} {ds : List Diagnostic}
    (h : w.complaint? source = some ds) :
    Act.owner Memory.surroundings source w = .ok (.error ds) (w.askedOwner source) := by
  obtain ⟨answer, hanswer, hds⟩ := Option.bind_eq_some_iff.mp h
  cases answer with
  | ok r => cases hds
  | error ds' =>
      cases hds
      exact Act.eq_ok_of_value? hanswer

/-- The project `p` mentions `s.fs`, and cracking it fails. -/
def failing (p error : String) : List Operation :=
  Operation.authoring p "<Compile Include=\"s.fs\"/>" (.failed error)

def Operation.outcome (ops : List Operation) : Workspace Memory :=
  (runAll ops).after (.fresh .empty)

/-- Two projects fail, and one of them was resolved before. -/
def failingTwice : List Operation :=
  failing "/P.fsproj" "restore failed" ++ failing "/Q.fsproj" "no such target" ++
    [.ask (.options ⟨"/P.fsproj"⟩)]

set_option maxRecDepth 10000 in
/-- The other one is reported. -/
theorem owner_failure_failingTwice : ∃ answer w',
    Operation.runAll failingTwice (.fresh .empty) = .ok () (Operation.outcome failingTwice) ∧
      Act.owner Memory.surroundings ⟨"/s.fs"⟩ (Operation.outcome failingTwice) = .ok answer w' ∧
      FailureAnswer (Operation.outcome failingTwice) (Memory.locate ⟨"/s.fs"⟩) answer w' ∧
      answer = .error [⟨.crackFailed, ⟨"/Q.fsproj"⟩, "no such target"⟩] := by
  have hrun : Operation.runAll failingTwice (.fresh .empty) =
      .ok () (Operation.outcome failingTwice) :=
    Act.eq_ok_of_returns (by decide +kernel)
  obtain ⟨hn, ht⟩ :=
    (Operation.runAll_settled (.fresh .empty) hrun).nobody (Memory.locate ⟨"/s.fs"⟩)
    (by decide +kernel)
  obtain ⟨answer, w', h, hanswer⟩ :=
    owner_failure .empty failingTwice ⟨"/s.fs"⟩ hrun (by decide +kernel) hn ht
  have hcomplaint : Act.owner Memory.surroundings ⟨"/s.fs"⟩ (Operation.outcome failingTwice) =
      .ok (.error [⟨.crackFailed, ⟨"/Q.fsproj"⟩, "no such target"⟩]) _ :=
    Workspace.owner_eq_error (by decide +kernel)
  injection hcomplaint.symm.trans h with hsame
  exact ⟨answer, w', hrun, h, hanswer, hsame.symm⟩

/-- One project fails, and the owner of its file was asked for. -/
def failingAsked : List Operation :=
  failing "/P.fsproj" "restore failed" ++ [.ask (.owner ⟨"/s.fs"⟩)]

set_option maxRecDepth 10000 in
/-- When the owner is asked for again, nobody is said to compile the file, although nothing changed
and a project that mentions it fails to crack. -/
theorem owner_unreported :
    Operation.runAll failingAsked (.fresh .empty) = .ok () (Operation.outcome failingAsked) ∧
      Kind.ofPath? (Memory.locate ⟨"/s.fs"⟩).path ≠ some .script ∧
      (¬ ∃ id, (Operation.outcome failingAsked).Owns (Memory.locate ⟨"/s.fs"⟩) id) ∧
      (¬ ∃ id, (Operation.outcome failingAsked).WouldOwn (Memory.locate ⟨"/s.fs"⟩) id) ∧
      (∃ id error, (Operation.outcome failingAsked).FailsFor (Memory.locate ⟨"/s.fs"⟩) id error) ∧
      Act.owner Memory.surroundings ⟨"/s.fs"⟩ (Operation.outcome failingAsked) =
        .ok (.error [Act.noOwner (Memory.locate ⟨"/s.fs"⟩)])
          ((Operation.outcome failingAsked).askedOwner ⟨"/s.fs"⟩) := by
  have hrun : Operation.runAll failingAsked (.fresh .empty) =
      .ok () (Operation.outcome failingAsked) :=
    Act.eq_ok_of_returns (by decide +kernel)
  obtain ⟨hn, ht⟩ :=
    (Operation.runAll_settled (.fresh .empty) hrun).nobody (Memory.locate ⟨"/s.fs"⟩)
    (by decide +kernel)
  have hf : (Operation.outcome failingAsked).FailsFor (Memory.locate ⟨"/s.fs"⟩)
    ⟨Memory.locate ⟨"/P.fsproj"⟩, .project⟩
      "restore failed" :=
    ⟨by decide +kernel, rfl, mentionsName_iff.mpr (by decide +kernel), by decide +kernel⟩
  exact ⟨hrun, by decide +kernel, hn, ht, ⟨_, _, hf⟩, Workspace.owner_eq_error (by decide +kernel)⟩

end FSharpWorkspace
