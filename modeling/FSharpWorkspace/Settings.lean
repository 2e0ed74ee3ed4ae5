import FSharpWorkspace.Scan
import FSharpWorkspace.Toml.Document
/-!
# Settings

Settings come from up to three files, laid over each other: that of the user, then `.fsls.toml` and
`fsls.toml` of the workspace. A key at the top of a file may be a path (`scan.hidden`). Values are
taken in the type that a setting needs where that makes sense: `"on"` is true, `"3"` is a number,
and a number is a text.
-/

set_option autoImplicit false

namespace FSharpWorkspace

structure CrackerSettings where
  command : String
  args : List String
deriving DecidableEq, Repr

structure Settings where
  debug : Bool := false
  logDir : Option String := none
  cracker : Option CrackerSettings := none
  scan : ScanOptions := {}
deriving DecidableEq, Repr

/-- Why settings cannot be loaded. -/
inductive SettingsFault where
  /-- A file is no configuration, or a value has a wrong type. -/
  | malformed
  /-- A file of the workspace cannot be read. -/
  | unreadable (fault : ReadFault)
deriving DecidableEq, Repr

def SettingsFault.message : SettingsFault → String
  | malformed => "Configuration build/deserialize error"
  | unreadable _ => "Failed to read project configuration file"

/-- The wording of a fault with what is behind it. -/
def SettingsFault.fullMessage (f : SettingsFault) : String :=
  match f with
  | malformed => f.message
  | unreadable fault => f.message ++ ": " ++ fault.message

namespace Toml

/-! ## Values in the types that settings need -/

def trueWords : List String := ["true", "on", "yes"]

def falseWords : List String := ["false", "off", "no"]

def toFlag? : Toml → Option Bool
  | .flag b => some b
  | .integer n => some (n ≠ 0)
  | .float x => some x.isNonzero
  | .text s =>
    let word := s.toLower
    if word = "1" || trueWords.contains word then some true
    else if word = "0" || falseWords.contains word then some false
    else none
  | _ => none

def maxCount : Nat := UInt64.size - 1

/-- A text of digits as a count; a plus may stand before them. -/
def countOf? (text : String) : Option Nat := do
  let digits := match text.toList with
    | '+' :: rest => rest
    | chars => chars
  if digits.isEmpty || !digits.all Char.isDigit then none
  let n := Scalar.valueOf 10 digits
  if n ≤ maxCount then some n else none

def toCount? : Toml → Option Nat
  | .flag b => some (if b then 1 else 0)
  | .integer n => if n ≥ 0 then some n.toNat else none
  | .float x => some (x.toNatUpTo maxCount)
  | .text s =>
    let word := s.toLower
    if trueWords.contains word then some 1
    else if falseWords.contains word then some 0
    else countOf? s
  | _ => none

def toText? : Toml → Option String
  | .flag b => some (if b then "true" else "false")
  | .integer n => some (toString n)
  | .float x => some x.plainText
  | .text s => some s
  | _ => none

def toTexts? : Toml → Option (List String)
  | .list vs => vs.mapM toText?
  | _ => none

/-- A value as a record: its fields by name in a table, by position in a list. -/
def record? : Toml → Option (Nat → String → Option Toml)
  | .table fs => some fun _ name => fs.lookup name
  | .list vs => some fun position _ => vs[position]?
  | _ => none

def optional? {α : Type} (read : Toml → Option α) : Toml → Option (Option α)
  | .nothing => some none
  | v => (read v).map some

/-- Reads a field of a record, or takes its default. -/
def fieldOr? {α : Type} (record : Nat → String → Option Toml) (position : Nat) (name : String)
    (default : α) (read : Toml → Option α) : Option α :=
  match record position name with
  | none => some default
  | some v => read v

/-! ## Paths as keys -/

/-- Reads the steps after the first one. Every round takes a character. -/
def stepsFrom : Nat → List Char → Option (List Step)
  | _, [] => some []
  | 0, _ => none
  | rounds + 1, '.' :: rest =>
    let word := rest.takeWhile Reader.isBare
    if word.isEmpty then none
    else (stepsFrom rounds (rest.drop word.length)).map (.key (String.ofList word) :: ·)
  | rounds + 1, '[' :: rest => do
    let rest := rest.dropWhile fun c => c = ' ' || c = '\t'
    let (negative, rest) := match rest with
      | '-' :: rest => (true, rest)
      | rest => (false, rest)
    let digits := rest.takeWhile Char.isDigit
    if digits.isEmpty then none
    let n : Int := Scalar.valueOf 10 digits
    let i := if negative then -n else n
    if i < -0x8000000000000000 ∨ 0x8000000000000000 ≤ i then none
    match (rest.drop digits.length).dropWhile fun c => c = ' ' || c = '\t' with
    | ']' :: rest => (stepsFrom rounds rest).map (.position i :: ·)
    | _ => none
  | _, _ => none

/-- The way that a key at the top of a file describes; a key that describes none
stands for itself. -/
def stepsOf (key : String) : List Step :=
  let first := key.toList.takeWhile Reader.isBare
  if first.isEmpty then [.key key]
  else
    match stepsFrom key.length (key.toList.drop first.length) with
    | some steps => .key (String.ofList first) :: steps
    | none => [.key key]

/-- A configuration with the fields of a file laid over it. -/
def layFile (old : Toml) (fields : List (String × Toml)) : Toml :=
  fields.foldl (fun v (key, new) => putAt (stepsOf key) new v) old

end Toml

namespace Settings

/-! ## From configurations -/

/-- The cracker of a configuration. -/
def crackerOf? (v : Toml) : Option CrackerSettings := do
  let record ← v.record?
  let command ← (← record 0 "command").toText?
  let args ← Toml.fieldOr? record 1 "args" [] Toml.toTexts?
  return ⟨command, args⟩

/-- The scan options of a configuration. -/
def scanOf? (v : Toml) : Option ScanOptions := do
  let record ← v.record?
  return {
    hidden := ← Toml.fieldOr? record 0 "hidden" false Toml.toFlag?
    noIgnore := ← Toml.fieldOr? record 1 "no_ignore" false Toml.toFlag?
    followLinks := ← Toml.fieldOr? record 2 "follow_links" false Toml.toFlag?
    maxDepth := ← Toml.fieldOr? record 3 "max_depth" none (Toml.optional? Toml.toCount?) }

/-- The settings of a configuration. -/
def ofToml? (v : Toml) : Option Settings := do
  let record ← v.record?
  return {
    debug := ← Toml.fieldOr? record 0 "debug" false Toml.toFlag?
    logDir := ← Toml.fieldOr? record 1 "log_dir" none (Toml.optional? Toml.toText?)
    cracker := ← Toml.fieldOr? record 2 "cracker" none (Toml.optional? crackerOf?)
    scan := ← Toml.fieldOr? record 3 "scan" {} scanOf? }

/-- The settings of some files, each laid over those before it. -/
def ofFiles? (files : List String) : Option Settings := do
  let configurations ← files.mapM Toml.ofText?
  ofToml? (configurations.foldl Toml.layFile (.table []))

/-! ## From a disk -/

/-- The files of a workspace, later ones laid over earlier ones. -/
def fileNames : List String := [".fsls.toml", "fsls.toml"]

/-- The text of a file of the workspace at `root`, if there is one. -/
def fileText (d : Disk) (cwd : Location) (root : Path) (name : String) :
    Except SettingsFault (Option String) :=
  let p := root.join ⟨name⟩
  if !d.reaches cwd p then .ok none
  else
    match d.read cwd p with
    | .ok text => .ok (some text)
    | .error fault => .error (.unreadable fault)

/-- Loads the settings of the workspace at `root`; `user` is the text of the file of the user. -/
def load (d : Disk) (cwd : Location) (user : Option String) (root : Path) :
    Except SettingsFault Settings := do
  let own ← fileNames.mapM (fileText d cwd root)
  match ofFiles? (user.toList ++ own.filterMap id) with
  | some settings => .ok settings
  | none => .error .malformed

end Settings

end FSharpWorkspace
