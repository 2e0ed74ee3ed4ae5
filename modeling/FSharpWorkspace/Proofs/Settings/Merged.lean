import FSharpWorkspace.Proofs.Settings.Distinct
import FSharpWorkspace.Proofs.Settings.Keys
import FSharpWorkspace.Proofs.Text.Utf8
import Mathlib.Data.List.Induction
/-!
# The settings of several files

Files are laid over each other in the order in which they are given. What comes of it is told path
by path (`Merges`): at every path of keys the merged tree has what the last file that says anything
of the path says of it. A file says nothing of a path if it has no value there and only tables on
the way. If something else than a table lies on the way, the file says that there is no value at the
path, for it replaces the tables of earlier files whole.

This describes the tree up to the order of its fields, and the settings do not depend on more
(`Alike`). So only the values of the merged tree have to have the right types (`load_merges`).

A key at the top of a file may describe a way instead of itself. It does so only if it has a dot or
is a word with positions in brackets behind it (`stepsOf_of_isPlain`, `load_positionedKey`).
-/

set_option autoImplicit false

namespace FSharpWorkspace

namespace Toml

/-! ## Values at paths -/

/-- What a value says of a path of keys: nothing, or which value is there, if any. -/
def says? : List String → Toml → Option (Option Toml)
  | [], v => some (some v)
  | key :: path, .table fs => (fs.lookup key).bind (says? path)
  | _ :: _, _ => some none

def at? (path : List String) (v : Toml) : Option Toml := (says? path v).join

/-- The value that the last of some files to say anything of a path gives it. -/
def lastAt? (files : List (List (String × Toml))) (path : List String) : Option Toml :=
  (files.reverse.findSome? fun fs => says? path (.table fs)).join

/-- A value without what stands below it. -/
def root : Toml → Toml
  | .table _ => .table []
  | v => v

/-- At every path the tree with the fields `merged` has what the last of `files` to say
anything of it says. -/
def Merges (files : List (List (String × Toml))) (merged : List (String × Toml)) : Prop :=
  ∀ key path, (at? (key :: path) (.table merged)).map root = (lastAt? files (key :: path)).map root

theorem lastAt?_concat (files : List (List (String × Toml))) (fs : List (String × Toml))
    (path : List String) :
    lastAt? (files ++ [fs]) path = (says? path (.table fs)).getD (lastAt? files path) := by
  unfold lastAt?
  rw [List.reverse_append, List.reverse_singleton, List.singleton_append, List.findSome?_cons]
  cases says? path (.table fs) <;> rfl

theorem merges_singleton (fs : List (String × Toml)) : Merges [fs] fs := by
  intro key path
  rw [← List.nil_append [fs], lastAt?_concat]
  unfold at?
  cases says? (key :: path) (.table fs) <;> rfl

/-! ## Laying a value over another -/

theorem lookup_setField_ne {k key : String} (h : k ≠ key) (v : Toml) (fs : List (String × Toml)) :
    (setField key v fs).lookup k = fs.lookup k := by
  have hbeq : (k == key) = false := beq_eq_false_iff_ne.mpr h
  induction fs with
  | nil => rw [setField, List.lookup_cons, hbeq]
  | cons f fs ih =>
      obtain ⟨k', v'⟩ := f
      rw [setField]
      split
      · next hk =>
          subst hk
          rw [List.lookup_cons, List.lookup_cons, hbeq]
      · rw [List.lookup_cons, List.lookup_cons, ih]

theorem lookup_eq_none_of_notMem {k : String} {fs : List (String × Toml)}
    (h : k ∉ fs.map Prod.fst) :
    fs.lookup k = none := by
  refine List.lookup_eq_none_iff.mpr fun f hf => ?_
  have hne : k ≠ f.1 := fun he => h (he ▸ List.mem_map_of_mem hf)
  simpa using hne

/-- A field of the newer fields is laid over the older one, and the others stay. -/
theorem lookup_overlayFields {new : List (String × Toml)} (hn : (new.map Prod.fst).Nodup)
    (old : List (String × Toml)) (k : String) : (overlayFields old new).lookup k =
      match new.lookup k with
      | some v => some (overlay ((old.lookup k).getD .nothing) v)
      | none => old.lookup k := by
  induction new generalizing old with
  | nil => rw [overlayFields]; rfl
  | cons f rest ih =>
      obtain ⟨key, v⟩ := f
      obtain ⟨hkey, hrest⟩ := List.nodup_cons.mp hn
      rw [overlayFields, ih hrest, List.lookup_cons]
      by_cases hk : k = key
      · subst hk
        rw [lookup_eq_none_of_notMem hkey, lookup_setField]
        simp
      · rw [lookup_setField_ne hk, beq_eq_false_iff_ne.mpr hk]

theorem Distinct.nodup {fs : List (String × Toml)} (h : (Toml.table fs).Distinct) :
    (fs.map Prod.fst).Nodup := by
  cases h with
  | leaf h _ =>
      cases h
      exact .nil
  | table hn _ => exact hn

theorem Distinct.of_lookup {fs : List (String × Toml)} {k : String} {v : Toml}
    (h : (Toml.table fs).Distinct) (hv : fs.lookup k = some v) : v.Distinct := by
  obtain ⟨before, after, hsplit, -⟩ := List.lookup_eq_some_iff.mp hv
  cases h with
  | leaf h _ =>
      cases h
      cases hv
  | table _ hd => exact hd k v (by simp [hsplit])

theorem at?_cons (key : String) (path : List String) (v : Toml) :
    at? (key :: path) v = (v.get? key).bind (at? path) := by
  cases v with
  | table fs =>
      show ((fs.lookup key).bind (says? path)).join = (fs.lookup key).bind (at? path)
      cases fs.lookup key <;> rfl
  | nothing | flag | integer | float | text | list => rfl

/-- What lies at a path after a value was laid over another one. -/
theorem at?_overlay {new : Toml} (hnew : new.Distinct) (old : Toml) (path : List String) :
    (at? path (overlay old new)).map root = ((says? path new).getD (at? path old)).map root := by
  induction path generalizing old new with
  | nil => cases new <;> rw [overlay] <;> rfl
  | cons key path ih =>
      cases new with
      | table fs =>
          have hlookup := lookup_overlayFields hnew.nodup old.fields key
          rw [overlay, at?_cons, at?_cons]
          show (((overlayFields old.fields fs).lookup key).bind (at? path)).map root =
            (((fs.lookup key).bind (says? path)).getD ((old.fields.lookup key).bind (at? path))).map
              root
          rw [hlookup]
          cases hv : fs.lookup key with
          | none => rfl
          | some v =>
              have hrest := ih (hnew.of_lookup hv) ((old.fields.lookup key).getD .nothing)
              show (at? path (overlay _ v)).map root = ((says? path v).getD _).map root
              rw [hrest]
              -- where nothing was, nothing is found on the rest of the way
              cases path with
              | nil => rfl
              | cons next path =>
                  cases old.fields.lookup key with
                  | none => rfl
                  | some u => rfl
      | nothing | flag | integer | float | text | list =>
          rw [overlay]
          rfl

/-! ## Laying files over each other -/

/-- A file whose keys are plain is laid over a tree as a table is. -/
theorem layFile_eq {file : List (String × Toml)} (hplain : ∀ f ∈ file, IsPlain f.1)
    (old : List (String × Toml)) :
    layFile (.table old) file = .table (overlayFields old file) := by
  induction file generalizing old with
  | nil =>
      rw [overlayFields]
      rfl
  | cons f rest ih =>
      obtain ⟨key, v⟩ := f
      have hput : putAt (stepsOf key) v (.table old) =
          .table (setField key (overlay ((old.lookup key).getD .nothing) v) old) := by
        rw [stepsOf_of_isPlain (hplain _ List.mem_cons_self), putAt, putAt]
        rfl
      have hrest := ih fun f hf => hplain f (List.mem_cons_of_mem _ hf)
      calc layFile (.table old) ((key, v) :: rest)
          = layFile (putAt (stepsOf key) v (.table old)) rest := rfl
        _ = .table (overlayFields old ((key, v) :: rest)) := by rw [hput, hrest, overlayFields]

/-- Files laid over each other in their order make a tree that merges them. -/
theorem exists_merges {files : List (List (String × Toml))}
    (hdistinct : ∀ file ∈ files, (Toml.table file).Distinct)
    (hplain : ∀ file ∈ files, ∀ f ∈ file, IsPlain f.1) :
    ∃ merged, files.foldl layFile (.table []) = .table merged ∧ Merges files merged := by
  induction files using List.reverseRecOn with
  | nil => exact ⟨[], rfl, fun key path => rfl⟩
  | append_singleton files file ih =>
      obtain ⟨merged, hlaid, hmerges⟩ := ih (fun f hf => hdistinct f (List.mem_append_left _ hf))
        fun f hf => hplain f (List.mem_append_left _ hf)
      have hlast : file ∈ files ++ [file] := by simp
      refine ⟨overlayFields merged file, ?_, fun key path => ?_⟩
      · rw [List.foldl_append, hlaid]
        exact layFile_eq (hplain file hlast) merged
      · have hover := at?_overlay (hdistinct file hlast) (.table merged) (key :: path)
        rw [overlay] at hover
        rw [lastAt?_concat]
        refine hover.trans ?_
        cases says? (key :: path) (.table file) with
        | none => exact hmerges key path
        | some v => rfl

/-! ## Trees that are alike -/

/-- Two values have the same at every path, but for the order of fields. -/
def Alike (v u : Toml) : Prop := ∀ path, (at? path v).map root = (at? path u).map root

/-- Two tables have the same keys, and values that are alike. -/
def AlikeFields (fs gs : List (String × Toml)) : Prop :=
  ∀ key, (fs.lookup key = none ∧ gs.lookup key = none) ∨
    ∃ a b, fs.lookup key = some a ∧ gs.lookup key = some b ∧ Alike a b

theorem alikeFields_of_paths {fs gs : List (String × Toml)}
    (h : ∀ key path, (at? (key :: path) (.table fs)).map root =
      (at? (key :: path) (.table gs)).map root) :
    AlikeFields fs gs := by
  intro key
  have hkey : ∀ path,
      ((fs.lookup key).bind (at? path)).map root = ((gs.lookup key).bind (at? path)).map root := by
    intro path
    have hpath := h key path
    rwa [at?_cons, at?_cons] at hpath
  have hnil := hkey []
  cases hf : fs.lookup key with
  | none =>
      cases hg : gs.lookup key with
      | none => exact Or.inl ⟨rfl, rfl⟩
      | some b =>
          rw [hf, hg] at hnil
          cases hnil
  | some a =>
      cases hg : gs.lookup key with
      | none =>
          rw [hf, hg] at hnil
          cases hnil
      | some b =>
          refine Or.inr ⟨a, b, rfl, rfl, fun path => ?_⟩
          have hpath := hkey path
          rwa [hf, hg] at hpath

/-- Values that are alike are equal, or both are tables. -/
theorem Alike.cases {v u : Toml} (h : Alike v u) :
    v = u ∨ ∃ fs gs, v = .table fs ∧ u = .table gs ∧ AlikeFields fs gs := by
  have hroot : v.root = u.root := Option.some.inj (h [])
  cases v with
  | table fs =>
      cases u with
      | table gs =>
          exact Or.inr ⟨fs, gs, rfl, rfl, alikeFields_of_paths fun key path => h (key :: path)⟩
      | nothing | flag | integer | float | text | list => cases hroot
  | nothing | flag | integer | float | text | list =>
      cases u with
      | table gs => cases hroot
      | nothing | flag | integer | float | text | list => exact Or.inl hroot

def Respects {α : Type} (read : Toml → Option α) : Prop := ∀ v u, Alike v u → read v = read u

section

variable {α : Type} {read : Toml → Option α} {fs gs : List (String × Toml)}

theorem respects_of_table
    (h : ∀ fs gs, AlikeFields fs gs → read (.table fs) = read (.table gs)) : Respects read := by
  intro v u hvu
  rcases hvu.cases with rfl | ⟨fs, gs, rfl, rfl, hfields⟩
  · rfl
  · exact h fs gs hfields

theorem Respects.optional (h : Respects read) : Respects (optional? read) := by
  intro v u hvu
  rcases hvu.cases with rfl | ⟨fs, gs, rfl, rfl, -⟩
  · rfl
  · show (read (.table fs)).map some = (read (.table gs)).map some
    rw [h _ _ hvu]

theorem AlikeFields.bind_lookup (h : AlikeFields fs gs) (hread : Respects read) (key : String) :
    (fs.lookup key).bind read = (gs.lookup key).bind read := by
  rcases h key with ⟨hf, hg⟩ | ⟨a, b, hf, hg, hab⟩
  · rw [hf, hg]
  · rw [hf, hg]
    exact hread a b hab

theorem AlikeFields.fieldOr? (h : AlikeFields fs gs) (hread : Respects read) (position : Nat)
    (name : String) (default : α) :
    Toml.fieldOr? (fun _ name => fs.lookup name) position name default read =
      Toml.fieldOr? (fun _ name => gs.lookup name) position name default read := by
  unfold Toml.fieldOr?
  dsimp only
  rcases h name with ⟨hf, hg⟩ | ⟨a, b, hf, hg, hab⟩
  · rw [hf, hg]
  · rw [hf, hg]
    exact hread a b hab

end

theorem respects_toFlag? : Respects toFlag? := respects_of_table fun _ _ _ => rfl

theorem respects_toCount? : Respects toCount? := respects_of_table fun _ _ _ => rfl

theorem respects_toText? : Respects toText? := respects_of_table fun _ _ _ => rfl

theorem respects_toTexts? : Respects toTexts? := respects_of_table fun _ _ _ => rfl

end Toml

namespace Disk

variable {d : Disk} {l : Location} {name : String}

/-- The last step of a walk, to what is no link. -/
theorem walk_name (links : Nat) (hdir : d.isDirectory l = true)
    (hname : name.toList ∉ [[], ['.'], ['.', '.']]) (hshort : name.utf8ByteSize ≤ nameLimit)
    (hlink : ∀ target, d.item? (l.child name) ≠ some (.link target)) :
    d.walk links l [name.toList] = if (d.item? (l.child name)).isSome then .ok (l.child name)
      else .error .noEntry := by
  obtain ⟨hempty, hdot, hdots⟩ : name.toList ≠ [] ∧ name.toList ≠ ['.'] ∧
      name.toList ≠ ['.', '.'] := by
    simpa using hname
  rw [walk, hdir, String.ofList_toList, if_neg (by simp), if_neg (by simp [hempty, hdot]),
    if_neg hdots, if_neg (Nat.not_lt.mpr hshort)]
  cases hitem : d.item? (l.child name) with
  | none => rfl
  | some item =>
      cases item with
      | link target => exact absurd hitem (hlink target)
      | file | directory =>
        show walk d links (l.child name) [] = _
        rw [walk]
        rfl

end Disk

namespace Settings

open Toml (AlikeFields Respects)

theorem crackerOf?_table (fs : List (String × Toml)) :
    crackerOf? (.table fs) = ((fs.lookup "command").bind Toml.toText?).bind fun command =>
      (Toml.fieldOr? (fun _ name => fs.lookup name) 1 "args" [] Toml.toTexts?).bind fun args =>
        some ⟨command, args⟩ := by
  show ((fs.lookup "command").bind fun v => v.toText?.bind _) = _
  cases fs.lookup "command" <;> rfl

theorem respects_crackerOf? : Respects crackerOf? := by
  refine Toml.respects_of_table fun fs gs h => ?_
  rw [crackerOf?_table, crackerOf?_table, h.bind_lookup Toml.respects_toText?,
    h.fieldOr? Toml.respects_toTexts?]

theorem scanOf?_table (fs : List (String × Toml)) :
    scanOf? (.table fs) =
      let field := fun {α : Type} => @Toml.fieldOr? α fun _ name => fs.lookup name
      (field 0 "hidden" false Toml.toFlag?).bind fun hidden =>
      (field 1 "no_ignore" false Toml.toFlag?).bind fun noIgnore =>
      (field 2 "follow_links" false Toml.toFlag?).bind fun followLinks =>
      (field 3 "max_depth" none (Toml.optional? Toml.toCount?)).bind fun maxDepth =>
        some { hidden, noIgnore, followLinks, maxDepth } := rfl

theorem respects_scanOf? : Respects scanOf? := by
  refine Toml.respects_of_table fun fs gs h => ?_
  simp only [scanOf?_table, h.fieldOr? Toml.respects_toFlag?,
    h.fieldOr? Toml.respects_toCount?.optional]

theorem ofToml?_table (fs : List (String × Toml)) :
    ofToml? (.table fs) =
      let field := fun {α : Type} => @Toml.fieldOr? α fun _ name => fs.lookup name
      (field 0 "debug" false Toml.toFlag?).bind fun debug =>
      (field 1 "log_dir" none (Toml.optional? Toml.toText?)).bind fun logDir =>
      (field 2 "cracker" none (Toml.optional? crackerOf?)).bind fun cracker =>
      (field 3 "scan" {} scanOf?).bind fun scan =>
        some { debug, logDir, cracker, scan } := rfl

/-- Settings do not depend on the order of fields. -/
theorem ofToml?_congr {fs gs : List (String × Toml)} (h : AlikeFields fs gs) :
    ofToml? (.table fs) = ofToml? (.table gs) := by
  simp only [ofToml?_table, h.fieldOr? Toml.respects_toFlag?,
    h.fieldOr? Toml.respects_toText?.optional, h.fieldOr? respects_crackerOf?.optional,
    h.fieldOr? respects_scanOf?]

/-- Two trees that merge the same files give the same settings. -/
theorem ofToml?_merges {files : List (List (String × Toml))} {fs gs : List (String × Toml)}
    (hf : Toml.Merges files fs) (hg : Toml.Merges files gs) :
    ofToml? (.table fs) = ofToml? (.table gs) :=
  ofToml?_congr (Toml.alikeFields_of_paths fun key path => (hf key path).trans (hg key path).symm)

/-! ## Loading -/

theorem exists_of_mem_mapM {α β : Type} {f : α → Option β} {xs : List α} {ys : List β}
    (h : xs.mapM f = some ys) {y : β} (hy : y ∈ ys) : ∃ x ∈ xs, f x = some y := by
  induction xs generalizing ys with
  | nil =>
      cases h
      cases hy
  | cons x xs ih =>
      rw [List.mapM_cons] at h
      obtain ⟨z, hz, h⟩ := Option.bind_eq_some_iff.mp h
      obtain ⟨zs, hzs, h⟩ := Option.bind_eq_some_iff.mp h
      cases h
      rcases List.mem_cons.mp hy with rfl | hy
      · exact ⟨x, List.mem_cons_self, hz⟩
      · obtain ⟨x', hx', hfx'⟩ := ih hzs hy
        exact ⟨x', List.mem_cons_of_mem _ hx', hfx'⟩

/-- The settings of some files are those of any tree that merges them. -/
theorem ofFiles?_merges {texts : List String} {files : List (List (String × Toml))}
    (hfiles : texts.mapM Toml.ofText? = some files)
    (hplain : ∀ file ∈ files, ∀ f ∈ file, Toml.IsPlain f.1) :
    (∃ merged, Toml.Merges files merged) ∧
      ∀ merged, Toml.Merges files merged → ofFiles? texts = ofToml? (.table merged) := by
  have hdistinct : ∀ file ∈ files, (Toml.table file).Distinct := by
    intro file hfile
    obtain ⟨text, -, htext⟩ := exists_of_mem_mapM hfiles hfile
    exact Toml.ofText?_distinct htext
  obtain ⟨laid, hlaid, hmerges⟩ := Toml.exists_merges hdistinct hplain
  have hof : ofFiles? texts = ofToml? (.table laid) := by
    unfold ofFiles?
    rw [hfiles, ← hlaid]
    rfl
  exact ⟨⟨laid, hmerges⟩, fun merged h => hof.trans (ofToml?_merges hmerges h)⟩

theorem load_eq {d : Disk} {cwd : Location} {user hidden own : Option String} {root : Path}
    (hhidden : fileText d cwd root ".fsls.toml" = .ok hidden)
    (hown : fileText d cwd root "fsls.toml" = .ok own) :
    load d cwd user root =
      match ofFiles? (user.toList ++ hidden.toList ++ own.toList) with
      | some settings => .ok settings
      | none => .error .malformed := by
  have hnames : fileNames.mapM (fileText d cwd root) = .ok [hidden, own] := by
    rw [fileNames, List.mapM_cons, hhidden, List.mapM_cons, hown]
    rfl
  have htexts : [hidden, own].filterMap id = hidden.toList ++ own.toList := by
    cases hidden <;> cases own <;> rfl
  unfold load
  rw [hnames, List.append_assoc, ← htexts]
  rfl

/-- What the root of a disk has under the name of a settings file is the file that is read. -/
theorem fileText_root {d : Disk} {name : String} {text : Option String} (hname : name ∈ fileNames)
    (hitem : d.item? (Location.root.child name) = text.map fun t => .file (Utf8.encode t)) :
    fileText d .root ⟨"/"⟩ name = .ok text := by
  let p : Path := (⟨"/"⟩ : Path).join ⟨name⟩
  have hresolve : d.resolve .root p = d.walk Disk.linkLimit .root [[], name.toList] := by
    obtain ⟨hnul, hempty, hshort, hstart, hpieces⟩ : p.text.toList.contains '\x00' =
      false ∧ p.text.isEmpty = false ∧
        p.text.utf8ByteSize ≤ Disk.pathLimit ∧ p.text.toList.head? = some '/' ∧
        Disk.pieces p.text = [[], name.toList] := by
      clear hitem
      revert name
      decide +kernel
    rw [Disk.resolve, hnul, hempty, if_neg (by simp), if_neg (by simp),
      if_neg (Nat.not_lt.mpr hshort), Disk.startOf, if_pos hstart, hpieces]
  have hwalk : d.walk Disk.linkLimit .root [[], name.toList] =
      if text.isSome then .ok (Location.root.child name) else .error .noEntry := by
    obtain ⟨hplain, hshort⟩ : name.toList ∉ [[], ['.'], ['.', '.']] ∧
        name.utf8ByteSize ≤ Disk.nameLimit := by
      clear hitem hresolve
      revert name
      decide +kernel
    have hlink : ∀ target, d.item? (Location.root.child name) ≠ some (.link target) := by
      intro target
      rw [hitem]
      cases text <;> simp
    rw [Disk.walk, if_neg (by simp; rfl), if_pos (Or.inl rfl),
      Disk.walk_name _ rfl hplain hshort hlink, hitem]
    cases text <;> rfl
  rw [hwalk] at hresolve
  have hp : (⟨"/"⟩ : Path).join ⟨name⟩ = p := rfl
  unfold fileText
  rw [hp]
  cases text with
  | none => simp [Disk.reaches, hresolve, Except.toOption]
  | some t =>
      have hread : d.read .root p = .ok t := by
        simp [Disk.read, Disk.readBytes, hresolve, hitem, bind, Except.bind, Utf8.decode?_encode]
      simp [Disk.reaches, hresolve, Except.toOption, hread]

/-- **Precedence.** Let each of the three files be absent or a configuration with plain keys at
its top. Then there is a tree that at every path of keys has what the last of the files to say
anything of the path says of it. The settings that are loaded are those of that tree, and loading
fails only if these cannot be read. So a value that is replaced does not have to have the type
that its setting needs. -/
theorem load_merges {d : Disk} {cwd : Location} {user hidden own : Option String} {root : Path}
    {files : List (List (String × Toml))} (hhidden : fileText d cwd root ".fsls.toml" = .ok hidden)
    (hown : fileText d cwd root "fsls.toml" = .ok own)
    (hfiles : (user.toList ++ hidden.toList ++ own.toList).mapM Toml.ofText? = some files)
    (hplain : ∀ file ∈ files, ∀ f ∈ file, Toml.IsPlain f.1) :
    (∃ merged, Toml.Merges files merged) ∧
    ∀ merged, Toml.Merges files merged →
      load d cwd user root =
        match ofToml? (.table merged) with
        | some settings => .ok settings
        | none => .error .malformed := by
  obtain ⟨hexists, hof⟩ := ofFiles?_merges hfiles hplain
  refine ⟨hexists, fun merged hmerged => ?_⟩
  rw [load_eq hhidden hown, hof merged hmerged]

/-- A value of a wrong type that a later file replaces does no harm, be it in the file of the
user or in another. -/
theorem load_merges_wrongTypesReplaced :
    load ⟨[(Location.root.child ".fsls.toml", .file (Utf8.encode "scan = 7\nlog_dir = \"a\"\n")),
        (Location.root.child "fsls.toml",
          .file (Utf8.encode "debug = true\n[scan]\nhidden = true\n"))]⟩
      .root (some "debug = [1]\n") ⟨"/"⟩ =
        .ok { debug := true, logDir := some "a", scan := { hidden := true } } := by
  generalize hd : Disk.mk _ = d
  have hhidden : fileText d .root ⟨"/"⟩ ".fsls.toml" = .ok (some "scan = 7\nlog_dir = \"a\"\n") :=
    fileText_root (by decide) (by rw [← hd]; rfl)
  have hown : fileText d .root ⟨"/"⟩ "fsls.toml" =
      .ok (some "debug = true\n[scan]\nhidden = true\n") :=
    fileText_root (by decide) (by rw [← hd]; rfl)
  have hread : (((some "debug = [1]\n").toList ++ (some "scan = 7\nlog_dir = \"a\"\n").toList ++
      (some "debug = true\n[scan]\nhidden = true\n").toList).mapM Toml.ofText?).any (fun files =>
        files.all fun file => file.all fun f => f.1.toList.all Toml.Reader.isBare) =
          true := by decide +kernel
  obtain ⟨files, hfiles, hbare⟩ := (Option.any_eq_true _ _).mp hread
  have hplain : ∀ file ∈ files, ∀ f ∈ file, Toml.IsPlain f.1 := by
    intro file hfile f hf
    have hall := List.all_eq_true.mp (List.all_eq_true.mp hbare file hfile) f hf
    exact Toml.isPlain_of_bare (List.all_eq_true.mp hall)
  obtain ⟨⟨merged, hmerged⟩, hload⟩ := load_merges hhidden hown hfiles hplain
  have hsettings : ofToml? (.table merged) =
      some { debug := true, logDir := some "a", scan := { hidden := true } } := by
    rw [← (ofFiles?_merges hfiles hplain).2 merged hmerged]
    decide +kernel
  rw [hload merged hmerged, hsettings]

/-- A key without a dot may still describe a way: `scan[0]` puts a list into `scan`, whose first
value is then taken for the first option of a scan. The tree that merges the files has no `scan`. -/
theorem load_positionedKey :
    ∃ file, Toml.ofText? "\"scan[0]\" = true\n" = some file ∧
      file.map (fun f => (f.1, f.2.toFlag?)) = [("scan[0]", some true)] ∧ Toml.Merges [file] file ∧
      ofToml? (.table file) = some {} ∧
      load ⟨[(Location.root.child "fsls.toml", .file (Utf8.encode "\"scan[0]\" = true\n"))]⟩ .root
        none ⟨"/"⟩ = .ok { scan := { hidden := true } } := by
  generalize hd : Disk.mk _ = d
  have hhidden : fileText d .root ⟨"/"⟩ ".fsls.toml" = .ok none :=
    fileText_root (by decide) (by rw [← hd]; rfl)
  have hown : fileText d .root ⟨"/"⟩ "fsls.toml" = .ok (some "\"scan[0]\" = true\n") :=
    fileText_root (by decide) (by rw [← hd]; rfl)
  have hread : (Toml.ofText? "\"scan[0]\" = true\n").any (fun file =>
      file.map (fun f => (f.1, f.2.toFlag?)) = [("scan[0]", some true)] ∧
        ofToml? (.table file) = some {}) = true := by
    decide +kernel
  obtain ⟨file, hfile, hread⟩ := (Option.any_eq_true _ _).mp hread
  obtain ⟨hfields, hdefault⟩ := of_decide_eq_true hread
  have hsettings : ofFiles? ["\"scan[0]\" = true\n"] = some { scan := { hidden := true } } := by
    decide +kernel
  refine ⟨file, hfile, hfields, Toml.merges_singleton file, hdefault, ?_⟩
  rw [load_eq hhidden hown, Option.toList_none, Option.toList_some, List.nil_append,
    List.nil_append, hsettings]

end Settings

end FSharpWorkspace
