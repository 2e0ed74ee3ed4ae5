import FSharpWorkspace.Machine
import FSharpWorkspace.Proofs.Machine.Walks
/-!
# The kind in an identity

The kind in an identity is read off the spelling, the place is found on the disk. The place ends in
the name at the end of the spelling, unless a link is found under that name
(`Disk.locate_eq_child`). Links to directories on the way do not matter, and neither do dots.

So two identities of one place have one kind, and this is the kind of the place, exactly if neither
spelling ends at a link to a file of another kind (`Machine.one_kind_iff`). With such a link there
is one file with two kinds (`Machine.two_kinds`).
-/

set_option autoImplicit false

namespace FSharpWorkspace

/-! ## Places that end in a name -/

theorem Location.eq_child_of_fileName? {l : Location} {name : String}
    (h : l.fileName? = some name) :
    ∃ dir : Location, l = dir.child name := by
  obtain ⟨names, hnames⟩ := List.getLast?_eq_some_iff.mp h
  refine ⟨⟨names⟩, ?_⟩
  cases l
  exact congrArg Location.mk hnames

/-- The plain spelling of a place ends in the last name, whatever the names before it are. -/
theorem Location.fileName?_path_child (dir : Location) {name : String} (h : IsProper name) :
    (dir.child name).path.fileName? = some name := by
  have htext : (dir.child name).text.toList = slashed dir.names ++ '/' :: name.toList := by
    rw [Location.toList_text (by simp [child])]
    simp [slashed, child]
  have hpieces : Disk.pieces (dir.child name).path.text =
      Text.splitOn '/' (slashed dir.names) ++ [name.toList] := by
    show Text.splitOn '/' (dir.child name).text.toList = _
    rw [htext, Text.splitOn_append_cons, Text.splitOn_of_not_mem h.2.2.2]
  unfold Path.fileName?
  rw [Disk.getLast?_components hpieces (Component.ofPiece?_toList h)]

namespace Disk

/-! ## The name at the end of a spelling -/

theorem names_of_getLast? {ps : List (List Char)} {name : String}
    (h : (ps.filterMap Component.ofPiece?).getLast? = some (.name name)) :
    ∃ init rest, ps = init ++ name.toList :: rest ∧ Names name.toList ∧ ∀ piece ∈ rest,
      piece = [] ∨ piece = ['.'] := by
  obtain ⟨steps, hsteps⟩ := List.getLast?_eq_some_iff.mp h
  obtain ⟨before, after, rfl, -, hafter⟩ := List.filterMap_eq_append_iff.mp hsteps
  obtain ⟨blank, last, rest, rfl, -, hlast, hrest⟩ := List.filterMap_eq_cons_iff.mp hafter
  obtain ⟨rfl, hnames⟩ := Names.of_ofPiece? hlast
  refine ⟨before ++ blank, rest, by simp, hnames, fun piece hp => ?_⟩
  exact Component.ofPiece?_eq_none.mp (List.filterMap_eq_nil_iff.mp hrest piece hp)

/-- Behind the name at the end of a spelling there are only pieces that stay where they are. -/
theorem pieces_of_fileName? {p : Path} {name : String} (h : p.fileName? = some name) :
    ∃ init rest, pieces p.text = init ++ name.toList :: rest ∧ Names name.toList ∧
      ∀ piece ∈ rest, piece = [] ∨ piece = ['.'] := by
  have hlast := Path.getLast?_of_fileName? h
  -- a step in front of the other ones is not the name
  have hfront : ∀ (c : Component) (steps : List Component), (∀ n, c ≠ .name n) →
      (c :: steps).getLast? = some (.name name) → steps.getLast? = some (.name name) := by
    intro c steps hc hcs
    cases steps with
    | nil => exact absurd (Option.some.inj hcs) (hc name)
    | cons c' steps => rwa [List.getLast?_cons_cons] at hcs
  rw [components_eq] at hlast
  split at hlast
  · cases hlast
  · cases hlast
  · next ps _ heq =>
      obtain ⟨init, rest, rfl, hrest⟩ := names_of_getLast? (hfront .root _ nofun hlast)
      exact ⟨[] :: init, rest, heq, hrest⟩
  · next ps heq =>
      obtain ⟨init, rest, rfl, hrest⟩ := names_of_getLast? (hfront .here _ nofun hlast)
      exact ⟨['.'] :: init, rest, heq, hrest⟩
  · exact names_of_getLast? hlast

/-- The name at the end of a spelling, looked up in the directory to which the pieces before
it lead, is a link. -/
def EndsAtLink (d : Disk) (from_ : Location) (p : Path) : Prop :=
  ∃ init last rest links dir target, pieces p.text = init ++ last :: rest ∧ Names last ∧
    (∀ piece ∈ rest, piece = [] ∨ piece = ['.']) ∧
      d.Leads linkLimit (startOf p.text from_) init links dir ∧
    d.item? (dir.child (String.ofList last)) = some (.link target)

variable {d : Disk} {links links' : Nat} {l l' from_ : Location} {p : Path} {name : String}

/-- Pieces that stay where they are lead nowhere else. -/
theorem Leads.eq_of_stay {rest : List (List Char)} (h : d.Leads links l rest links' l')
    (hrest : ∀ piece ∈ rest, piece = [] ∨ piece = ['.']) : l = l' := by
  induction h with
  | nil => rfl
  | stay _ _ _ ih => exact ih fun piece hp => hrest piece (List.mem_cons_of_mem _ hp)
  | up => exact absurd (hrest _ List.mem_cons_self) (by simp)
  | enter _ hn => exact absurd (hrest _ List.mem_cons_self) (not_or.mpr ⟨hn.1, hn.2.1⟩)
  | follow _ hn => exact absurd (hrest _ List.mem_cons_self) (not_or.mpr ⟨hn.1, hn.2.1⟩)

/-- A walk goes on from a directory only. -/
theorem Leads.isDirectory {piece : List Char} {rest : List (List Char)}
    (h : d.Leads links l (piece :: rest) links' l') : d.isDirectory l = true := by
  cases h with
  | stay hd _ _ => exact hd
  | up hd _ => exact hd
  | enter hd _ _ _ _ _ => exact hd
  | follow hd _ _ _ _ => exact hd

/-- What a walk finds under a name is a link, or it is entered. -/
theorem Leads.lookup {piece : List Char} {rest : List (List Char)}
    (h : d.Leads links l (piece :: rest) links' l') (hn : Names piece) :
    (∃ target, d.item? (l.child (String.ofList piece)) = some (.link target)) ∨
      d.Leads links (l.child (String.ofList piece)) rest links' l' := by
  cases h with
  | stay _ hp _ => exact absurd hp (not_or.mpr ⟨hn.1, hn.2.1⟩)
  | up _ _ => exact absurd rfl hn.2.2
  | enter _ _ _ _ _ hrest => exact Or.inr hrest
  | follow _ _ _ hitem _ => exact Or.inl ⟨_, hitem⟩

/-- The place that a spelling names ends in the last name of the spelling, unless the spelling leads
to it through a link under this name. -/
theorem locate_eq_child (hname : p.fileName? = some name)
    (hlink : ∀ l, d.resolve from_ p = .ok l → ¬ d.EndsAtLink from_ p) :
    ∃ dir : Location, d.locate from_ p = dir.child name := by
  unfold locate
  split
  · next l h =>
      obtain ⟨init, rest, hpieces, hnames, hrest⟩ := pieces_of_fileName? hname
      -- the walk is cut in front of the last name, where it stands in the directory in which the
      -- name is looked up
      obtain ⟨k, hwalk⟩ := walk_eq_ok.mp (walk_of_resolve h)
      rw [hpieces] at hwalk
      obtain ⟨links, dir, hinit, hlast⟩ := hwalk.split
      rcases hlast.lookup hnames with ⟨target, hitem⟩ | hend
      · exact absurd ⟨init, _, rest, links, dir, target, hpieces, hnames, hrest,
          hinit, hitem⟩ (hlink l h)
      · rw [String.ofList_toList] at hend
        exact ⟨dir, (hend.eq_of_stay hrest).symm⟩
  · -- the spelling leads nowhere, and by its dots alone it names a place with the same last name
    exact Location.eq_child_of_fileName? (Location.fileName?_reach hname from_)

end Disk

/-! ## One kind -/

namespace Machine

/-- The spelling ends at a link to a file of another kind. -/
def Disguised (m : Machine) (p : Path) : Prop :=
  m.disk.EndsAtLink m.directory p ∧
    ∃ l, m.disk.resolve m.directory p = .ok l ∧ Kind.ofPath? l.path ≠ Kind.ofPath? p

variable {m : Machine} {p q : Path} {i j : Identity}

/-- The kind in an identity is that of the place exactly if the spelling does not end at a link to a
file of another kind. -/
theorem kind_of_location_iff (h : Identity.of m.locate p = .ok i) :
    Kind.ofPath? i.location.path = some i.kind ↔ ¬ m.Disguised p := by
  obtain ⟨hkind, hplace⟩ := Identity.kind_of_eq_ok h
  rw [← hplace, ← hkind]
  constructor
  · rintro hsame ⟨-, l, hl, hother⟩
    rw [locate, Disk.locate_of_resolve hl] at hsame
    exact hother hsame
  · intro hnot
    by_cases hlink : ∃ l, m.disk.resolve m.directory p = .ok l ∧ m.disk.EndsAtLink m.directory p
    · obtain ⟨l, hl, hend⟩ := hlink
      rw [locate, Disk.locate_of_resolve hl]
      by_contra hother
      exact hnot ⟨hend, l, hl, hother⟩
    · obtain ⟨name, hname⟩ := Kind.fileName?_of_ofPath? hkind
      obtain ⟨dir, hdir⟩ := Disk.locate_eq_child hname fun l hl hend => hlink ⟨l, hl, hend⟩
      rw [locate, hdir]
      exact Kind.ofPath?_congr
        ((dir.fileName?_path_child (Path.isProper_of_fileName? hname)).trans hname.symm)

/-- **One identity, one kind.** Two identities of one place have the same kind, and this is the kind
of the place, exactly if neither spelling ends at a link to a file of another kind. -/
theorem one_kind_iff (hi : Identity.of m.locate p = .ok i) (hj : Identity.of m.locate q = .ok j)
    (h : i.location = j.location) :
    (i.kind = j.kind ∧ Kind.ofPath? i.location.path = some i.kind) ↔
      ¬ m.Disguised p ∧ ¬ m.Disguised q := by
  rw [← kind_of_location_iff hi, ← kind_of_location_iff hj, ← h]
  constructor
  · rintro ⟨hsame, hkind⟩
    exact ⟨hkind, hsame ▸ hkind⟩
  · rintro ⟨hkind, hkind'⟩
    exact ⟨Option.some.inj (hkind.symm.trans hkind'), hkind⟩

/-- A project, a link to it that has the suffix of a script, and one that has the
suffix of a project. -/
def renamed : Machine :=
  ⟨⟨[(⟨["b.fsproj"]⟩, .file []), (⟨["a.fsx"]⟩, .link "b.fsproj"),
    (⟨["old.fsproj"]⟩, .link "b.fsproj")]⟩,
    .root, none, {}⟩

theorem leads_renamed {links : Nat} :
    renamed.disk.Leads links .root ["b.fsproj".toList] links ⟨["b.fsproj"]⟩ :=
  .enterName "b.fsproj" (.file []) (by decide) (by decide) (by decide) (by decide) nofun (.nil _ _)

theorem resolve_renamed : ∀ p ∈ [(⟨"b.fsproj"⟩ : Path), ⟨"a.fsx"⟩, ⟨"./old.fsproj"⟩],
    renamed.disk.resolve renamed.directory p = .ok ⟨["b.fsproj"]⟩ := by
  simp only [List.forall_mem_cons, List.not_mem_nil, false_implies, implies_true, and_true]
  refine ⟨?_, ?_, ?_⟩
  · exact Disk.resolve_of_leads (by decide) (by decide) (by decide) leads_renamed
  · exact Disk.resolve_of_leads (by decide) (by decide) (by decide)
      (.followName "a.fsx" "b.fsproj" (by decide) (by decide) (by decide) (by decide) leads_renamed)
  · exact Disk.resolve_of_leads (by decide) (by decide) (by decide) (.stay (by decide) (Or.inr rfl)
      (.followName "old.fsproj" "b.fsproj" (by decide) (by decide) (by decide)
        (by decide) leads_renamed))

theorem one_kind_iff_renamed : ∃ i j : Identity,
    Identity.of renamed.locate ⟨"b.fsproj"⟩ = .ok i ∧
      Identity.of renamed.locate ⟨"./old.fsproj"⟩ = .ok j ∧
      i.location = j.location ∧
      ((i.kind = j.kind ∧ Kind.ofPath? i.location.path = some i.kind) ↔
        ¬ renamed.Disguised ⟨"b.fsproj"⟩ ∧ ¬ renamed.Disguised ⟨"./old.fsproj"⟩) ∧
      i.kind = j.kind ∧ ¬ renamed.Disguised ⟨"./old.fsproj"⟩ := by
  have hplain := resolve_renamed ⟨"b.fsproj"⟩ (by simp)
  have hold := resolve_renamed ⟨"./old.fsproj"⟩ (by simp)
  have hi : Identity.of renamed.locate ⟨"b.fsproj"⟩ = .ok ⟨renamed.locate ⟨"b.fsproj"⟩, .project⟩ :=
    rfl
  have hj : Identity.of renamed.locate ⟨"./old.fsproj"⟩ =
      .ok ⟨renamed.locate ⟨"./old.fsproj"⟩, .project⟩ :=
    rfl
  have hsame : renamed.locate ⟨"b.fsproj"⟩ = renamed.locate ⟨"./old.fsproj"⟩ :=
    (Disk.locate_of_resolve hplain).trans (Disk.locate_of_resolve hold).symm
  refine ⟨_, _, hi, hj, hsame, one_kind_iff hi hj hsame, rfl, ?_⟩
  rintro ⟨-, l, hl, hother⟩
  obtain rfl := Except.ok.inj (hold.symm.trans hl)
  exact hother (by decide)

/-- One file is a script under one spelling and a project under another. -/
theorem two_kinds : ∃ i j : Identity,
    Identity.of renamed.locate ⟨"a.fsx"⟩ = .ok i ∧ Identity.of renamed.locate ⟨"b.fsproj"⟩ = .ok j ∧
      i.location = j.location ∧ i.kind = .script ∧ j.kind = .project ∧
      Kind.ofPath? i.location.path = some .project := by
  have hlink : renamed.locate ⟨"a.fsx"⟩ = ⟨["b.fsproj"]⟩ :=
    Disk.locate_of_resolve (resolve_renamed _ (by simp))
  have hplain : renamed.locate ⟨"b.fsproj"⟩ = ⟨["b.fsproj"]⟩ :=
    Disk.locate_of_resolve (resolve_renamed _ (by simp))
  refine ⟨⟨renamed.locate ⟨"a.fsx"⟩, .script⟩, ⟨renamed.locate ⟨"b.fsproj"⟩, .project⟩, rfl, rfl,
    hlink.trans hplain.symm, rfl, rfl, ?_⟩
  show Kind.ofPath? (renamed.locate ⟨"a.fsx"⟩).path = _
  rw [hlink]
  decide

end Machine

end FSharpWorkspace
