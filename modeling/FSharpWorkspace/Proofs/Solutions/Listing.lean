import FSharpWorkspace.Proofs.Machine.Walks
import FSharpWorkspace.Proofs.Solutions.ProjectLines
/-!
# Solutions that list projects

`Solution.render` writes an entry for every project, with the slashes of its path turned round.
`Solution.members` reads such a text back: it finds the identities of the projects against the
directory of the solution, in order and as often as they are listed (`Solution.members_of_listing`).
What else stands in the text does not matter, as long as it is no project line itself
(`Solution.Listing`).

The kind of a listed project is read off the path behind the directory. It is that of the name at
the end, which the directory does not change (`Path.EndsIn.join`).
-/

set_option autoImplicit false

namespace FSharpWorkspace

/-! ## The name at the end of a spelling -/

namespace Path

variable {p d r : Path} {last stem ext : List Char}

/-- A spelling ends in `last`, right behind a slash or with nothing in front of it. -/
def EndsIn (p : Path) (last : List Char) : Prop :=
  '/' ∉ last ∧ ∃ before, p.text.toList = before ++ last ∧
    (before = [] ∨ ∃ front, before = front ++ ['/'])

/-- A directory in front of a spelling leaves its end alone. -/
theorem EndsIn.join (h : r.EndsIn last) (d : Path) : (d.join r).EndsIn last := by
  obtain ⟨hslash, before, htext, hbefore⟩ := h
  have longer (text : String) (hclosed : text = "" ∨ ∃ front, text.toList = front ++ ['/']) :
      EndsIn ⟨text ++ r.text⟩ last := by
    refine ⟨hslash, text.toList ++ before, by simp [htext], ?_⟩
    rcases hbefore with rfl | ⟨front, rfl⟩
    · rcases hclosed with rfl | ⟨front, hfront⟩
      · exact Or.inl rfl
      · exact Or.inr ⟨front, by simpa using hfront⟩
    · exact Or.inr ⟨text.toList ++ front, by simp⟩
  unfold Path.join
  split
  · exact ⟨hslash, before, htext, hbefore⟩
  · split
    · next hd =>
        refine longer d.text ?_
        rcases (Bool.or_eq_true _ _).mp hd with hempty | hend
        · exact Or.inl (String.isEmpty_iff.mp hempty)
        · exact Or.inr (List.getLast?_eq_some_iff.mp (by simpa using hend))
    · exact longer (d.text ++ "/") (Or.inr ⟨d.text.toList, by simp⟩)

theorem EndsIn.fileName? (h : p.EndsIn last) (hn : Disk.Names last) :
    p.fileName? = some (String.ofList last) := by
  obtain ⟨hslash, before, htext, hbefore⟩ := h
  obtain ⟨init, hinit⟩ : ∃ init, Disk.pieces p.text = init ++ [last] := by
    unfold Disk.pieces
    rcases hbefore with rfl | ⟨front, rfl⟩
    · exact ⟨[], by rw [htext, List.nil_append, Text.splitOn_of_not_mem hslash, List.nil_append]⟩
    · refine ⟨Text.splitOn '/' front, ?_⟩
      rw [htext, List.append_assoc, List.singleton_append, Text.splitOn_append_cons,
        Text.splitOn_of_not_mem hslash]
  rw [Path.fileName?, Disk.getLast?_components hinit hn.ofPiece?]

/-- A name is cut at its last dot. -/
theorem cut_append (hstem : stem ≠ []) (hext : '.' ∉ ext) :
    FileName.cut (String.ofList (stem ++ '.' :: ext)) =
      (String.ofList stem, some (String.ofList ext)) := by
  have hrev : (stem ++ '.' :: ext).reverse = ext.reverse ++ '.' :: stem.reverse := by simp
  have hdots : ∀ c ∈ ext.reverse, decide (c ≠ '.') = true := fun c hc =>
    decide_eq_true fun hdot => hext (hdot ▸ List.mem_reverse.mp hc)
  unfold FileName.cut
  simp only [String.toList_ofList, hrev]
  rw [List.takeWhile_append_of_pos hdots, List.dropWhile_append_of_pos hdots]
  simp [hstem]

end Path

namespace Solution

/-! ## Listed projects -/

variable {p : String} {projects : List String} {locate : Path → Location} {dir : Path} {i : Nat}

/-- What a project path is like that a solution can list: it has no character that a project line
gives another meaning, and it ends in the name of a project file. -/
structure Listable (p : String) : Prop where
  unquoted : '"' ∉ p.toList
  unbroken : '\n' ∉ p.toList
  unslashed : '\\' ∉ p.toList
  named : ∃ stem, stem ≠ [] ∧ Path.EndsIn ⟨p⟩ (stem ++ ".fsproj".toList)

theorem names_projectFile {stem : List Char} : Disk.Names (stem ++ ".fsproj".toList) := by
  have hlong : 7 ≤ (stem ++ ".fsproj".toList).length := by
    rw [List.length_append, show ".fsproj".toList.length = 7 by decide]
    omega
  refine ⟨?_, ?_, ?_⟩
  all_goals
    intro h
    rw [h] at hlong
    revert hlong
    decide

/-- The name at the end of a listable path is cut before its suffix, behind whatever
directory it stands. -/
theorem Listable.fileName? (h : Listable p) :
    ∃ name stem, (∀ dir : Path, (dir.join ⟨p⟩).fileName? = some name) ∧
      Path.fileName? ⟨p⟩ = some name ∧
      FileName.cut name = (String.ofList stem, some "fsproj") ∧ stem ⊆ p.toList := by
  obtain ⟨stem, hstem, hends⟩ := h.named
  have hext : ".fsproj".toList = '.' :: "fsproj".toList := by simp
  refine ⟨String.ofList (stem ++ ".fsproj".toList), stem, ?_,
    hends.fileName? names_projectFile, ?_, ?_⟩
  · exact fun dir => (hends.join dir).fileName? names_projectFile
  · rw [hext, Path.cut_append hstem (by decide), String.ofList_toList]
  · obtain ⟨-, before, htext, -⟩ := hends
    intro c hc
    rw [show p.toList = before ++ (stem ++ ".fsproj".toList) from htext]
    simp [hc]

theorem Listable.identity (h : Listable p) (locate : Path → Location) (dir : Path) :
    Identity.of locate (dir.join ⟨p⟩) = .ok ⟨locate (dir.join ⟨p⟩), .project⟩ := by
  obtain ⟨name, stem, hname, -, hcut, -⟩ := h.fileName?
  have hkind : Kind.ofPath? (dir.join ⟨p⟩) = some .project := by
    rw [Kind.ofPath?, Path.extension?, hname dir, Option.bind_some, FileName.extension?, hcut]
    rfl
  rw [Identity.of, hkind]

theorem toList_replaceChar (old new : Char) (text : String) :
    (Text.replaceChar old new text).toList = text.toList.map fun c => if c = old then new else c :=
  String.toList_ofList

/-- Slashes that were turned round are turned back. -/
theorem replaceChar_replaceChar (h : '\\' ∉ p.toList) :
    Text.replaceChar '\\' '/' (Text.replaceChar '/' '\\' p) = p := by
  have hback : ∀ c ∈ p.toList,
      ((fun c => if c = '\\' then '/' else c) ∘ fun c => if c = '/' then '\\' else c) c = id c := by
    intro c hc
    have hne : c ≠ '\\' := fun heq => h (heq ▸ hc)
    by_cases hslash : c = '/'
    · simp [hslash]
    · simp [hslash, hne]
  rw [Text.replaceChar, toList_replaceChar, List.map_map, List.map_congr_left hback, List.map_id,
    String.ofList_toList]

/-! ## What is written -/

/-- A character that stands in a field of a written entry, and is none of those that an entry adds,
is one of the path. -/
theorem Listable.mem_of_mem_field {c : Char} (h : Listable p) (hdigit : c.isDigit = false)
    (hfixed : c ∉ '\\' :: '\x7b' :: '\x7d' :: projectType.toList)
    (hc : c ∈ (line i p).type ∨ c ∈ (line i p).name ∨ c ∈ (line i p).path ∨ c ∈ (line i p).guid) :
    c ∈ p.toList := by
  simp only [List.mem_cons, not_or] at hfixed
  obtain ⟨hback, hopen, hclose, htype⟩ := hfixed
  rcases hc with hc | hc | hc | hc
  · exact absurd hc htype
  · obtain ⟨name, stem, -, hname, hcut, hstem⟩ := h.fileName?
    refine hstem ?_
    simpa [line, Path.stem?, hname, FileName.stem, hcut] using hc
  · rw [line, toList_replaceChar] at hc
    obtain ⟨c', hc', heq⟩ := List.mem_map.mp hc
    by_cases hslash : c' = '/'
    · rw [if_pos hslash] at heq
      exact absurd heq.symm hback
    · rw [if_neg hslash] at heq
      exact heq ▸ hc'
  · -- the position of the entry is written in digits
    have hguid : (line i p).guid = '\x7b' :: (Nat.toDigits 10 i ++ ['\x7d']) := by
      show ("\x7b" ++ Nat.repr i ++ "\x7d").toList = _
      rw [String.toList_append, String.toList_append, Nat.toList_repr]
      rfl
    rw [hguid, List.mem_cons, List.mem_append, List.mem_singleton] at hc
    rcases hc with hc | hc | hc
    · exact absurd hc hopen
    · rw [Nat.isDigit_of_mem_toDigits (by decide) (by decide) hc] at hdigit
      cases hdigit
    · exact absurd hc hclose

theorem Listable.line_unquoted (h : Listable p) (i : Nat) : (line i p).Unquoted := by
  have hfield := h.mem_of_mem_field (i := i) (c := '"') (by decide) (by decide)
  constructor
  · exact fun hc => h.unquoted (hfield (Or.inl hc))
  · exact fun hc => h.unquoted (hfield (Or.inr (Or.inl hc)))
  · exact fun hc => h.unquoted (hfield (Or.inr (Or.inr (Or.inl hc))))
  · exact fun hc => h.unquoted (hfield (Or.inr (Or.inr (Or.inr hc))))

theorem Listable.line_unbroken (h : Listable p) (i : Nat) : '\n' ∉ (line i p).text := by
  have hfield := h.mem_of_mem_field (i := i) (c := '\n') (by decide) (by decide)
  intro hc
  unfold ProjectLine.text at hc
  simp only [List.mem_append] at hc
  refine h.unbroken (hfield ?_)
  rcases hc with (((((((hc | hc) | hc) | hc) | hc) | hc) | hc) | hc) | hc
  · exact absurd hc (by decide)
  · exact Or.inl hc
  · exact absurd hc (by decide)
  · exact Or.inr (Or.inl hc)
  · exact absurd hc (by decide)
  · exact Or.inr (Or.inr (Or.inl hc))
  · exact absurd hc (by decide)
  · exact Or.inr (Or.inr (Or.inr hc))
  · exact absurd hc (by decide)

/-- The rows hold the entries of `projects` in order, the first one for position `i`, with blanks
around them and with other rows between them. -/
inductive Listing : Nat → List String → List (List Char) → Prop where
  | nil {i : Nat} : Listing i [] []
  | entry {i : Nat} {p : String} {projects : List String} {before after : List Char}
      {rows : List (List Char)} :
      Text.Blank before → Text.Blank after → Listing (i + 1) projects rows →
      Listing i (p :: projects) ((before ++ (line i p).text ++ after) :: rows)
  | other {i : Nat} {projects : List String} {row : List Char} {rows : List (List Char)} :
      ProjectLine.Foreign row → Listing i projects rows → Listing i projects (row :: rows)

theorem listing_renderLines (projects : List String) :
    Listing 0 projects ((renderLines projects).map String.toList) := by
  have hend : ProjectLine.Foreign "EndProject".toList := by decide
  -- the induction runs over the entries, which start at any position
  have key : ∀ (projects : List String) (i : Nat), Listing i projects
      ((projects.mapIdx fun k p => [String.ofList (line (i + k) p).text, "EndProject"]).flatten.map
        String.toList) := by
    intro projects
    induction projects with
    | nil => exact fun i => .nil
    | cons p projects ih =>
        intro i
        have hentry : Text.Blank [] := by decide
        have hrest := Listing.entry (p := p) hentry hentry (.other hend (ih (i + 1)))
        simpa [List.mapIdx_cons, Nat.add_assoc, Nat.add_comm 1] using hrest
  refine .other (by decide) ?_
  simpa using key projects 0

theorem madeOf_render (h : ∀ p ∈ projects, Listable p) :
    Text.MadeOf (render projects).toList ((renderLines projects).map String.toList) := by
  have htext : (render projects).toList =
      ((renderLines projects).map String.toList).flatMap (· ++ ['\n']) := by
    rw [render, String.toList_join, List.flatMap_map, List.flatMap_map]
    simp
  rw [htext]
  refine Text.madeOf_flatMap fun row hrow => ?_
  obtain ⟨written, hwritten, rfl⟩ := List.mem_map.mp hrow
  rcases List.mem_cons.mp hwritten with rfl | hwritten
  · decide
  · obtain ⟨entry, hentry, hwritten⟩ := List.mem_flatten.mp hwritten
    obtain ⟨i, hi, rfl⟩ := List.mem_mapIdx.mp hentry
    rcases List.mem_cons.mp hwritten with rfl | hwritten
    · rw [String.toList_ofList]
      exact (h _ (List.getElem_mem hi)).line_unbroken i
    · rw [List.mem_singleton.mp hwritten]
      decide

/-! ## What is read -/

/-- The identity that a line without blanks at its ends lists. -/
def listed? (locate : Path → Location) (dir : Path) (line : List Char) : Option Identity :=
  (ProjectLine.ofLine? line).bind fun fields =>
    if ".fsproj".toList.isSuffixOf fields.path then
      (Identity.of locate
        (dir.join ⟨Text.replaceChar '\\' '/' (String.ofList fields.path)⟩)).toOption.bind fun id =>
          if id.kind = .project then some id else none
    else none

/-- What a solution lists is read off its lines without the blanks at their ends. -/
theorem members_eq (locate : Path → Location) (dir : Path) (text : String) :
    members locate dir text =
      ((Text.linesOf (Text.splitOn '\n' text.toList)).map Text.trim).filterMap
        (listed? locate dir) := by
  unfold members Text.lines
  rw [List.filterMap_map, List.filterMap_map]
  refine List.filterMap_congr fun row _ => ?_
  simp only [Function.comp_apply, entry?, listed?, String.toList_ofList, Option.bind_eq_bind,
    Option.bind_assoc]
  refine congrArg _ (funext fun fields => ?_)
  by_cases hsuffix : ".fsproj".toList.isSuffixOf fields.path = true
  · rw [if_pos hsuffix, if_pos hsuffix, Option.bind_some]
  · rw [if_neg hsuffix, if_neg hsuffix, Option.bind_none]

theorem listed?_of_foreign {row : List Char} (h : ProjectLine.Foreign row) :
    listed? locate dir (Text.trim row) = none := by
  rw [listed?, ProjectLine.foreign_iff.mp h, Option.bind_none]

theorem Listable.listed?_line (h : Listable p) (i : Nat) :
    listed? locate dir (line i p).text = some ⟨locate (dir.join ⟨p⟩), .project⟩ := by
  have hsuffix : ".fsproj".toList.isSuffixOf (line i p).path = true := by
    obtain ⟨stem, -, -, before, htext, -⟩ := h.named
    have hturned : ".fsproj".toList.map
        (fun c => if c = '/' then '\\' else c) = ".fsproj".toList := by
      decide
    rw [List.isSuffixOf_iff_suffix]
    refine ⟨(before ++ stem).map fun c => if c = '/' then '\\' else c, ?_⟩
    calc (before ++ stem).map (fun c => if c = '/' then '\\' else c) ++ ".fsproj".toList
        = (before ++ stem).map (fun c => if c = '/' then '\\' else c) ++
            ".fsproj".toList.map fun c => if c = '/' then '\\' else c := by rw [hturned]
      _ = (before ++ stem ++ ".fsproj".toList).map fun c => if c = '/' then '\\' else c :=
        List.map_append.symm
      _ = p.toList.map fun c => if c = '/' then '\\' else c := by
          rw [List.append_assoc, show p.toList = before ++ (stem ++ ".fsproj".toList) from htext]
      _ = (line i p).path := (toList_replaceChar '/' '\\' p).symm
  have hpath : Text.replaceChar '\\' '/' (String.ofList (line i p).path) = p := by
    rw [line, String.ofList_toList, replaceChar_replaceChar h.unslashed]
  rw [listed?, ProjectLine.ofLine?_eq_some_iff.mpr ⟨rfl, h.line_unquoted i⟩, Option.bind_some,
    if_pos hsuffix, hpath, h.identity locate dir]
  rfl

theorem filterMap_listed? {rows : List (List Char)} (hp : ∀ p ∈ projects, Listable p)
    (h : Listing i projects rows) :
    (rows.map Text.trim).filterMap (listed? locate dir) =
      projects.map fun p => ⟨locate (dir.join ⟨p⟩), .project⟩ := by
  induction h with
  | nil => rfl
  | @entry i p projects before after rows hbefore hafter _ ih =>
      have hline : listed? locate dir (line i p).text = some ⟨locate (dir.join ⟨p⟩), .project⟩ :=
        (hp p (by simp)).listed?_line i
      rw [List.map_cons, Text.trim_surrounded _ hbefore hafter, ProjectLine.trim_text,
        List.filterMap_cons_some hline, List.map_cons,
        ih fun q hq => hp q (List.mem_cons_of_mem p hq)]
  | other hforeign _ ih =>
      rw [List.map_cons, List.filterMap_cons_none (listed?_of_foreign hforeign), ih hp]

/-- **What a solution lists is read back.** The text that is written for listable projects, and
any text that has their entries in order among lines that are no project lines, lists the
identities of the projects against the directory of the solution: in order, and each as often
as it was written. -/
theorem members_of_listing (locate : Path → Location) (dir : Path)
    (hp : ∀ p ∈ projects, Listable p) :
    members locate dir (render projects) =
      (projects.map fun p => ⟨locate (dir.join ⟨p⟩), .project⟩) ∧
      ∀ (text : String) (rows : List (List Char)), Text.MadeOf text.toList rows →
        Listing 0 projects rows →
        members locate dir text = projects.map fun p => ⟨locate (dir.join ⟨p⟩), .project⟩ := by
  have hread : ∀ (text : String) (rows : List (List Char)), Text.MadeOf text.toList rows →
    Listing 0 projects rows →
      members locate dir text = projects.map fun p => ⟨locate (dir.join ⟨p⟩), .project⟩ := by
    intro text rows hmade hlisting
    rw [members_eq, Text.map_trim_linesOf hmade, filterMap_listed? hp hlisting]
  constructor
  · exact hread _ _ (madeOf_render hp) (listing_renderLines projects)
  · exact hread

/-- A solution with both kinds of line ends. One project is listed twice, and between the entries
stand a line with a field too few and an empty one. -/
def mixed : String := String.ofList
  ([' '] ++ (line 0 "src/App.fsproj").text ++ [] ++ '\r' :: '\n' ::
    ("Project(\"\x7b1\x7d\") = \"tests\", \"tests.fsproj\"".toList ++ '\n' ::
      (['\t', ' '] ++ (line 1 "../Lib.fsproj").text ++ [' '] ++ '\n' ::
        ([] ++ '\r' :: '\n' :: ([] ++ (line 2 "src/App.fsproj").text ++ [' '])))))

theorem members_of_listing_mixed :
    (∀ p ∈ ["src/App.fsproj", "../Lib.fsproj", "src/App.fsproj"], Listable p) ∧
      members Location.root.reach ⟨"/ws"⟩ mixed =
        [⟨⟨["ws", "src", "App.fsproj"]⟩, .project⟩, ⟨⟨["Lib.fsproj"]⟩, .project⟩,
          ⟨⟨["ws", "src", "App.fsproj"]⟩, .project⟩] := by
  have happ : Listable "src/App.fsproj" :=
    ⟨by decide, by decide, by decide, "App".toList, by decide, by decide, "src/".toList, by decide,
      Or.inr ⟨"src".toList, by decide⟩⟩
  have hlib : Listable "../Lib.fsproj" :=
    ⟨by decide, by decide, by decide, "Lib".toList, by decide, by decide, "../".toList, by decide,
      Or.inr ⟨"..".toList, by decide⟩⟩
  have hp : ∀ p ∈ ["src/App.fsproj", "../Lib.fsproj", "src/App.fsproj"], Listable p := by
    intro p hmem
    simp only [List.mem_cons, List.not_mem_nil, or_false] at hmem
    rcases hmem with rfl | rfl | rfl
    · exact happ
    · exact hlib
    · exact happ
  have hlisting : Listing 0 ["src/App.fsproj", "../Lib.fsproj", "src/App.fsproj"]
      [[' '] ++ (line 0 "src/App.fsproj").text ++ [],
        "Project(\"\x7b1\x7d\") = \"tests\", \"tests.fsproj\"".toList,
        ['\t', ' '] ++ (line 1 "../Lib.fsproj").text ++ [' '], [],
        [] ++ (line 2 "src/App.fsproj").text ++ [' ']] :=
    .entry (by decide) (by decide) (.other (by decide +kernel) (.entry (by decide) (by decide)
      (.other (by decide) (.entry (by decide) (by decide) .nil))))
  refine ⟨hp, ((members_of_listing Location.root.reach ⟨"/ws"⟩ hp).2 mixed _ ?_ hlisting).trans
    (by decide +kernel)⟩
  rw [mixed, String.toList_ofList]
  refine .returnFeed ?_
    (.feed (by decide) (.feed ?_ (.returnFeed (by decide) (.last ?_ (by simp)))))
  · simpa using happ.line_unbroken 0
  · simpa using hlib.line_unbroken 1
  · simpa using happ.line_unbroken 2

end Solution

end FSharpWorkspace
