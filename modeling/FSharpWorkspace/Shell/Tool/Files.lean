import FSharpWorkspace.Shell.Tool.Lines
/-!
# Programs on files

Programs that look at paths and files, list directories, and make, copy or remove files.
-/

set_option autoImplicit false

namespace FSharpWorkspace.Shell.Tool

/-! ## Paths -/

/-- The part of a spelling before its last name. -/
def dirname (arg : String) : String :=
  match (Path.mk arg).parent? with
  | some p => if p.text.isEmpty then "." else p.text
  | none => if arg.isEmpty then "." else arg

/-- The last name of a spelling, without a suffix. -/
def basename (arg : String) (suffix : String) : String :=
  let name := ((Path.mk arg).components.getLast?.map Component.text).getD ""
  if !suffix.isEmpty && name ≠ suffix && suffix.toList.isSuffixOf name.toList then
    String.ofList (name.toList.take (name.length - suffix.length))
  else name

/-! ## Conditions -/

/-- The number that an argument of a condition is. -/
def conditionNumber (arg : String) : Except String Int :=
  let isBlank (c : Char) : Bool := c = ' ' || c = '\t' || c = '\n'
  match (String.ofList ((arg.toList.dropWhile isBlank).reverse.dropWhile isBlank).reverse).toInt?
    with
  | some n => .ok n
  | none => .error ("Illegal number: " ++ arg)

/-- Whether a condition on one argument holds. -/
def unary? (at_ : Place) (operator word : String) : Option Bool :=
  let bytes := at_.bytesOf word
  match operator with
  | "-n" => some (!word.isEmpty)
  | "-z" => some word.isEmpty
  | "-e" => some (at_.reaches word)
  | "-f" => some (bytes.toOption.isSome && word ≠ emptyFile)
  | "-d" => some (at_.reachesDirectory word)
  | "-r" => some (at_.reaches word)
  | "-w" => some (at_.reaches word)
  | "-x" => some (at_.reachesDirectory word)
  | "-s" => some (bytes.toOption.any fun bytes => !bytes.isEmpty)
  | "-L" => some (isLink word)
  | "-h" => some (isLink word)
  | _ => none
where
  /-- Whether a spelling names a link. -/
  isLink (word : String) : Bool :=
    match at_.disk.entry at_.directory ⟨word⟩ with
    | .ok l => (at_.disk.item? l).any fun
      | .link _ => true
      | _ => false
    | .error _ => false

/-- Whether a condition on two arguments holds. -/
def binary? (operator a b : String) : Option (Except String Bool) :=
  let compare (holds : Int → Int → Bool) : Option (Except String Bool) :=
    some (do return holds (← conditionNumber a) (← conditionNumber b))
  match operator with
  | "=" => some (.ok (a = b))
  | "!=" => some (.ok (a ≠ b))
  | "-eq" => compare fun a b => a = b
  | "-ne" => compare fun a b => a ≠ b
  | "-gt" => compare fun a b => a > b
  | "-ge" => compare fun a b => a ≥ b
  | "-lt" => compare fun a b => a < b
  | "-le" => compare fun a b => a ≤ b
  | _ => none

def notOperator {α : Type} (word : String) : Except String α :=
  .error (word ++ ": unexpected operator")

/-- Whether a condition on one argument holds; `operator` must be one. -/
def unary (at_ : Place) (operator word : String) : Except String Bool :=
  match unary? at_ operator word with
  | some b => .ok b
  | none => notOperator operator

/-- Whether a condition on two arguments holds; `operator` must be one. -/
def binary (a operator b : String) : Except String Bool :=
  (binary? operator a b).getD (notOperator a)

/-- Whether a condition without connectives holds. -/
def simpleCondition (at_ : Place) : List String → Except String Bool
  | [] => .ok false
  | [word] => .ok (!word.isEmpty)
  | ["!", word] => .ok word.isEmpty
  | ["!", operator, word] => do return !(← unary at_ operator word)
  | ["!", a, operator, b] => do return !(← binary a operator b)
  | [operator, word] => unary at_ operator word
  | [a, operator, b] => binary a operator b
  | a :: _ => notOperator a

/-- Whether a condition holds; connectives stand between conditions without them. Every round
takes an argument. -/
def condition (at_ : Place) : Nat → List String → Except String Bool
  | 0, args => simpleCondition at_ args
  | rounds + 1, args =>
    if args.length ≤ 3 then simpleCondition at_ args
    else
      let cut (connective : String) : Option (List String × List String) :=
        let left := args.takeWhile (· ≠ connective)
        if left.length < args.length && !left.isEmpty then some (left, args.drop (left.length + 1))
        else none
      match cut "-o", cut "-a" with
      | some (left, right), _ =>
        do return (← condition at_ rounds left) || (← condition at_ rounds right)
      | none, some (left, right) =>
        do return (← condition at_ rounds left) && (← condition at_ rounds right)
      | none, none => simpleCondition at_ args

/-- The status of a condition. Complaints start with `name`. -/
def test (name : String) (c : Call) (args : List String) : Effect :=
  c.done (match condition c.place args.length args with
    | .ok true => .silent 0
    | .ok false => .silent 1
    | .error text => .complained (name ++ text) 2)

/-- The status of a condition between brackets. -/
def bracket (name : String) (c : Call) : Effect :=
  if c.args.getLast? = some "]" then test (name ++ "[: ") c c.args.dropLast
  else c.done (.complained (name ++ "[: missing ]") 2)

/-! ## Directories -/

/-- The arguments that are options, as letters, and the others. -/
def options (args : List String) : List Char × List String :=
  let isOption (arg : String) : Bool := arg.toList.head? = some '-' && arg.length > 1
  ((args.filter isOption).flatMap fun arg => arg.toList.tail, args.filter fun arg => !isOption arg)

def ls (c : Call) : Effect :=
  let (letters, files) := options c.args
  let hidden := letters.contains 'a' || letters.contains 'A'
  let namesOf (l : Location) : List String :=
    (c.place.disk.namesIn l).filter fun name => hidden || name.toList.head? ≠ some '.'
  let asItself (file : String) : Bool := letters.contains 'd' || !c.place.reachesDirectory file
  let present := (if files.isEmpty then ["."] else files).mergeSort fun a b => a ≤ b
  let missing := present.filter fun file => !c.place.reaches file
  let present := present.filter c.place.reaches
  let plain := present.filter asItself
  let directories := present.filter fun file => !asItself file
  let listing (file : String) : List String :=
    let names := ((c.place.disk.resolve c.place.directory ⟨file⟩).toOption.map namesOf).getD []
    if files.length ≤ 1 then names else (file ++ ":") :: names
  let blocks := (if plain.isEmpty then [] else [plain]) ++ directories.map listing
  let lines := List.intercalate [""] blocks
  let complaints :=
    missing.map fun file => c.complaint "cannot access '" ++ file ++
      "': No such file or directory\n"
  c.done ⟨(if complaints.isEmpty then [] else [⟨true, Utf8.encode (String.join complaints)⟩]) ++
      (wrote (Utf8.encode (String.join (lines.map (· ++ "\n"))))).chunks,
        .status (if missing.isEmpty then 0 else 2)⟩

/-! ## Changes -/

/-- A program that changes the disk argument by argument; a change that fails yields a complaint. -/
def changeEach (c : Call) (files : List String)
    (change : Place → String → Except String Disk) : Effect :=
  let (disk, complaints) := files.foldl
    (fun (disk, complaints) file =>
      match change { c.place with disk } file with
      | .ok disk => (disk, complaints)
      | .error text => (disk, complaints ++ [text ++ "\n"]))
    (c.place.disk, [])
  c.changed disk
    (if complaints.isEmpty then .silent 0
      else ⟨[⟨true, Utf8.encode (String.join complaints)⟩], .status 1⟩)

/-- Removes files and, if asked to, directories with all that they hold. -/
def rm (c : Call) : Effect :=
  let (letters, files) := options c.args
  let forced := letters.contains 'f'
  let deep := letters.contains 'r' || letters.contains 'R'
  changeEach c files fun at_ file =>
    let refuse (why : String) : Except String Disk :=
      .error (c.complaint "cannot remove '" ++ file ++ "': " ++ why)
    match at_.disk.entry at_.directory ⟨file⟩ with
    | .error f => if forced then .ok at_.disk else refuse (faultText f)
    | .ok l =>
      if !at_.disk.isDirectory l then .ok ⟨at_.disk.items.filter (·.1 ≠ l)⟩
      else if deep then
        .ok ⟨at_.disk.items.filter fun (there, _) => !l.names.isPrefixOf there.names⟩
      else refuse "Is a directory"

def mkdir (c : Call) : Effect :=
  let (letters, files) := options c.args
  changeEach c files fun at_ file =>
    let refuse (why : String) : Except String Disk :=
      .error (c.complaint "cannot create directory '" ++ file ++ "': " ++ why)
    if letters.contains 'p' then .ok (at_.disk.write at_.directory ⟨file⟩ .directory)
    else if at_.reaches file then refuse "File exists"
    else
      match at_.fileToWrite? file with
      | .ok l => .ok (at_.disk.put l .directory)
      | .error f => refuse (faultText f)

def touch (c : Call) : Effect :=
  changeEach c (options c.args).2 fun at_ file =>
    if at_.reaches file then .ok at_.disk
    else
      match at_.fileToWrite? file with
      | .ok l => .ok (at_.disk.put l (.file []))
      | .error f => .error (c.complaint "cannot touch '" ++ file ++ "': " ++ faultText f)

/-- The spelling of the file that a copy of `source` in `target` is. -/
def targetOf (at_ : Place) (source target : String) : String :=
  if at_.reachesDirectory target then target ++ "/" ++ basename source "" else target

def cp (c : Call) : Effect :=
  let (_, files) := options c.args
  changeEach c files.dropLast fun at_ source =>
    let target := targetOf at_ source (files.getLast?.getD "")
    match at_.bytesOf source, at_.fileToWrite? target with
    | .error .isADirectory, _ =>
      .error (c.complaint "-r not specified; omitting directory '" ++ source ++ "'")
    | .error f, _ => .error (c.complaint "cannot stat '" ++ source ++ "': " ++ faultText f)
    | _, .error f =>
      .error (c.complaint "cannot create regular file '" ++ target ++ "': " ++ faultText f)
    | .ok bytes, .ok l => .ok (at_.disk.put l (.file bytes))

/-- Moves files or directories; the last argument is the target. -/
def mv (c : Call) : Effect :=
  let (_, files) := options c.args
  changeEach c files.dropLast fun at_ source =>
    let target := targetOf at_ source (files.getLast?.getD "")
    match at_.disk.entry at_.directory ⟨source⟩, at_.fileToWrite? target with
    | .error f, _ => .error (c.complaint "cannot stat '" ++ source ++ "': " ++ faultText f)
    | _, .error f =>
      .error (c.complaint "cannot move '" ++ source ++ "' to '" ++ target ++ "': " ++ faultText f)
    | .ok old, .ok new =>
      let kept := at_.disk.items.filter fun (there, _) => there ≠ new
      .ok ⟨kept.map fun (there, item) =>
        if old.names.isPrefixOf there.names then
          (⟨new.names ++ there.names.drop old.names.length⟩, item)
        else (there, item)⟩

def ln (c : Call) : Effect :=
  let (_, files) := options c.args
  match files with
  | [target, name] =>
    changeEach c [name] fun at_ name =>
      let name := targetOf at_ target name
      match at_.fileToWrite? name with
      | .ok l => .ok (at_.disk.put l (.link target))
      | .error f =>
        .error (c.complaint "failed to create symbolic link '" ++ name ++ "': " ++ faultText f)
  | _ => c.done (.complained (c.complaint "missing file operand") 1)

/-- Copies the input to the output and to files. -/
def tee (c : Call) : Effect :=
  let (letters, files) := options c.args
  let effect := changeEach c files fun at_ file =>
    let old := if letters.contains 'a' then ((at_.bytesOf file).toOption).getD [] else []
    if file = emptyFile then .ok at_.disk
    else
      match at_.fileToWrite? file with
      | .ok l => .ok (at_.disk.put l (.file (old ++ c.input)))
      | .error f => .error (c.complaint file ++ ": " ++ faultText f)
  { effect with
    input := [],
    outcome := { effect.outcome with chunks := effect.outcome.chunks ++ [⟨false, c.input⟩] } }

end FSharpWorkspace.Shell.Tool
