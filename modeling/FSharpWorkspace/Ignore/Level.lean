import FSharpWorkspace.Disk
import FSharpWorkspace.Ignore.Rule
/-!
# Ignore files of directories

The ignore files of a directory speak of everything below it. A path is judged by all directories
above it, from the nearest one outwards (`Level.judge`): first by their `.ignore` files, then by
their `.gitignore` files, then by the exclude files of repositories; within each kind the nearest
directory that says something decides. The last two kinds count only inside a repository, and
directories above the nearest repository are not asked.
-/

set_option autoImplicit false

namespace FSharpWorkspace

/-- What a directory above a path contributes to its judgement. -/
structure Level where
  /-- The names on the way from the directory to the one that holds the path. -/
  below : List String
  ignoreFile : List IgnoreRule
  gitIgnoreFile : List IgnoreRule
  excludeFile : List IgnoreRule
  isRepository : Bool
deriving Repr

namespace Level

/-! ## Judging -/

/-- The bytes of the path of `name` relative to the directory of a level. -/
def relative (level : Level) (name : String) : List UInt8 :=
  Utf8.encode ("/".intercalate (level.below ++ [name]))

/-- What the first of some levels that says something says of a name, in one kind of file. -/
def first (rules : Level → List IgnoreRule) (levels : List Level) (name : String)
    (isDirectory : Bool) :
    Option Verdict :=
  levels.findSome? fun level => IgnoreRule.verdict? (rules level) (level.relative name) isDirectory

/-- The levels up to the nearest repository; none outside of one. -/
def insideRepository (levels : List Level) : List Level :=
  match levels.dropWhile (!·.isRepository) with
  | [] => []
  | repository :: _ => levels.takeWhile (!·.isRepository) ++ [repository]

/-- What the levels above a directory, the nearest first, say of a name in it. -/
def judge (levels : List Level) (name : String) (isDirectory : Bool) : Option Verdict :=
  let inside := insideRepository levels
  (first ignoreFile levels name isDirectory).or
    ((first gitIgnoreFile inside name isDirectory).or (first excludeFile inside name isDirectory))

/-- The level of a directory as seen from the directory `name` below it. -/
def down (name : String) (level : Level) : Level := { level with below := level.below ++ [name] }

theorem insideRepository_eq_nil {levels : List Level}
    (h : ∀ level ∈ levels, level.isRepository = false) :
    insideRepository levels = [] := by
  have none : levels.dropWhile (!·.isRepository) = [] := by
    induction levels with
    | nil => rfl
    | cons level levels ih =>
      have here := h level (by simp)
      simp only [List.dropWhile_cons, here, Bool.not_false, if_true]
      exact ih fun level hl => h level (List.mem_cons_of_mem _ hl)
  simp [insideRepository, none]

/-! ## Loading -/

/-- The rules of the file that a spelling reaches from a directory; none if it cannot be read. -/
def rulesAt (d : Disk) (dir : Location) (p : Path) : List IgnoreRule :=
  match d.readBytes dir p with
  | .ok bytes => IgnoreRule.ofBytes bytes
  | .error _ => []

/-- The first line of a file. -/
def firstLine? (d : Disk) (dir : Location) (p : Path) : Option String :=
  match d.readBytes dir p with
  | .ok bytes => (IgnoreRule.linesOfBytes bytes).head?.map String.ofList
  | .error _ => none

/-- The directory, read from `cwd`, that holds what the working trees of a repository share. A
working tree has a file in place of the repository; it names a directory, and a file there
names the shared one. -/
def sharedDirectory? (d : Disk) (cwd dir : Location) : Option Path := do
  let link ← firstLine? d dir ⟨".git"⟩
  let own ← Text.afterStart? "gitdir: ".toList link.toList
  let ownPath : Path := ⟨String.ofList own⟩
  let shared ← firstLine? d cwd (ownPath.join ⟨"commondir"⟩)
  return if shared.toList.head? = some '.' then ownPath.join ⟨shared⟩ else ⟨shared⟩

/-- The rules of the exclude file of the repository in a directory. -/
def excludeRules (d : Disk) (cwd dir : Location) : List IgnoreRule :=
  match d.resolve dir ⟨".git"⟩ with
  | .error _ => []
  | .ok l =>
    if d.isDirectory l then rulesAt d dir ⟨".git/info/exclude"⟩
    else
      match sharedDirectory? d cwd dir with
      | some shared => rulesAt d cwd (shared.join ⟨"info/exclude"⟩)
      | none => []

/-- The level of a directory. -/
def load (d : Disk) (cwd dir : Location) : Level where
  below := []
  ignoreFile := rulesAt d dir ⟨".ignore"⟩
  gitIgnoreFile := rulesAt d dir ⟨".gitignore"⟩
  excludeFile := excludeRules d cwd dir
  isRepository := d.reaches dir ⟨".git"⟩ || d.reaches dir ⟨".jj"⟩

/-- The levels of the directories above a place, from the names on the way to it and the place where
they start; the nearest comes first. -/
def loadAbove (d : Disk) (cwd : Location) (top : Location) : List String → List Level
  | [] => []
  | name :: rest =>
    loadAbove d cwd (top.child name) rest ++ [{ load d cwd top with below := name :: rest }]

end Level

end FSharpWorkspace
