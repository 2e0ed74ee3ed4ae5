import FSharpWorkspace.Shell.Pattern
import FSharpWorkspace.Shell.Tool.Print
/-!
# Programs on lines

Programs that read files, or their input if none is named, and print what they make of the lines:
all of them, the first or the last ones, those with a pattern, sorted, counted, or edited.
-/

set_option autoImplicit false

namespace FSharpWorkspace.Shell.Tool

/-! ## Reading -/

/-- The lines of some bytes, each with its end if it has one. -/
def linesOf (bytes : List UInt8) : List (List UInt8) :=
  let pieces := Text.splitOn 10 bytes
  pieces.dropLast.map (· ++ [10]) ++ (pieces.getLast?.filter fun last => !last.isEmpty).toList

def textOf (line : List UInt8) : List Char :=
  (Utf8.decodeLossy (if line.getLast? = some 10 then line.dropLast else line)).toList

/-- Whether the name of a file stands for the input. -/
def isInput (file : String) : Bool := file = "-" || file = "/dev/stdin"

/-- The bytes of the named files one after the other, or of the input, with complaints that
`complaint` words. -/
def gather (c : Call) (complaint : String → ReadFault → String) (files : List String) :
    List UInt8 × List UInt8 :=
  if files.isEmpty then (c.input, [])
  else
    files.foldl
      (fun (bytes, complaints) file =>
        if isInput file then (bytes ++ c.input, complaints)
        else
          match c.place.bytesOf file with
          | .ok more => (bytes ++ more, complaints)
          | .error f => (bytes, complaints ++ Utf8.encode (complaint file f ++ "\n")))
      ([], [])

/-- A program that prints what `f` makes of the bytes that it reads; `failed` is its status if
a file is missing. -/
def filter (c : Call) (complaint : String → ReadFault → String) (files : List String) (failed : Nat)
    (f : List UInt8 → List UInt8) : Effect :=
  let (bytes, complaints) := gather c complaint files
  let printed := (wrote (f bytes)).chunks
  let o : Outcome :=
    if complaints.isEmpty then ⟨printed, .status 0⟩
    else ⟨⟨true, complaints⟩ :: printed, .status failed⟩
  if files.isEmpty || files.contains "-" then c.drained o else c.done o

def cannotRead (program file : String) (f : ReadFault) : String :=
  program ++ ": " ++ file ++ ": " ++ faultText f

/-- The complaint of programs that open files by a quoted name. -/
def cannotOpen (program file : String) (f : ReadFault) : String :=
  match f with
  | .isADirectory => program ++ ": error reading '" ++ file ++ "': " ++ faultText f
  | f => program ++ ": cannot open '" ++ file ++ "' for reading: " ++ faultText f

/-! ## Copying -/

/-- The chunk that one argument of `cat` prints. -/
def catOne (c : Call) (file : String) : Chunk :=
  if isInput file then ⟨false, c.input⟩
  else
    match c.place.bytesOf file with
    | .ok bytes => ⟨false, bytes⟩
    | .error f =>
      ⟨true, Utf8.encode (cannotRead c.name (if file.isEmpty then "''" else file) f ++ "\n")⟩

/-- The options and files among arguments: options come as letters, and after `--` all
arguments are files. -/
def optionsAndFiles : List String → List Char × List String
  | [] => ([], [])
  | "--" :: files => ([], files)
  | arg :: rest =>
    let (letters, files) := optionsAndFiles rest
    match arg.toList with
    | '-' :: c :: more => (c :: more ++ letters, files)
    | _ => (letters, arg :: files)

/-- How a byte is shown. `marks` says that bytes without a mark of their own are, `tabs` and `ends`
that tabs and ends of lines are. -/
def shown (marks tabs ends : Bool) (b : UInt8) : List UInt8 :=
  let low (b : UInt8) : List UInt8 :=
    if b < 32 then [94, b + 64] else if b = 127 then [94, 63] else [b]
  if b = 10 then if ends then [36, 10] else [10]
  else if b = 9 then if tabs then [94, 73] else [9]
  else if !marks then [b]
  else if b < 128 then low b
  else [77, 45] ++ low (b - 128)

/-- Lines without those of several empty ones that follow the first. -/
def squeezed : List (List UInt8) → List (List UInt8)
  | [10] :: [10] :: rest => squeezed ([10] :: rest)
  | line :: rest => line :: squeezed rest
  | [] => []

/-- Lines with numbers in front of those that are to have one. -/
def numbered : Nat → List (List UInt8 × Bool) → List (List UInt8)
  | _, [] => []
  | n, (line, false) :: rest => line :: numbered n rest
  | n, (line, true) :: rest =>
    let digits := toString n
    (Utf8.encode ("".pushn ' ' (6 - digits.length) ++ digits ++ "\t") ++ line) ::
      numbered (n + 1) rest

/-- What `cat` makes of bytes by its options. -/
def catEdit (letters : List Char) (bytes : List UInt8) : List UInt8 :=
  let any (cs : List Char) : Bool := cs.any letters.contains
  let lines := if any ['s'] then squeezed (linesOf bytes) else linesOf bytes
  let show_ := shown (any ['v', 'A', 'e', 't']) (any ['T', 'A', 't']) (any ['E', 'A', 'e'])
  let hasNumber (line : List UInt8) : Bool := if any ['b'] then line ≠ [10] else any ['n']
  (numbered 1 (lines.map fun line => (line.flatMap show_, hasNumber line))).flatten

def cat (c : Call) : Effect :=
  let (letters, files) := optionsAndFiles c.args
  match letters.find? fun letter => !"AbeEnstTuv".toList.contains letter with
  | some letter =>
    c.done (.complained
      (c.complaint ("invalid option -- '" ++ letter.toString ++ "'\nTry '" ++ c.name ++
      " --help' for more information.")) 1)
  | none =>
    let files := if files.isEmpty then ["-"] else files
    let chunks := files.map (catOne c)
    let edited := (chunks.filter (·.isError)) ++
      [⟨false, catEdit letters ((chunks.filter (!·.isError)).flatMap (·.bytes))⟩]
    let o : Outcome :=
      ⟨if letters.isEmpty then chunks else edited,
        .status (if chunks.any (·.isError) then 1 else 0)⟩
    if files.contains "-" then c.drained o else c.done o

/-! ## Beginnings and ends -/

/-- Reads the options of `head` and `tail`: how much, counted in lines or bytes, whether the count
is from the start, and the files. -/
def amount? : List String → Option (String × Bool × List String)
  | "-n" :: n :: files => some (n, false, files)
  | "-c" :: n :: files => some (n, true, files)
  | arg :: files =>
    match arg.toList with
    | '-' :: 'n' :: n => some (String.ofList n, false, files)
    | '-' :: 'c' :: n => some (String.ofList n, true, files)
    | '-' :: d :: n => if d.isDigit then some (String.ofList (d :: n), false, files) else none
    | _ => some ("10", false, arg :: files)
  | [] => some ("10", false, [])

def zeroFile : String := "/dev/zero"

def head (c : Call) : Effect :=
  match amount? c.args with
  | none => c.done (.complained (c.complaint "invalid option") 1)
  | some (n, inBytes, files) =>
    let n := (n.toNat?).getD 0
    if inBytes && files = [zeroFile] then c.done (wrote (List.replicate n 0))
    else
      filter c (cannotOpen c.name) files 1 fun bytes =>
        if inBytes then bytes.take n else ((linesOf bytes).take n).flatten

/-- Prints the last lines or bytes, or all from a given one on. -/
def tail (c : Call) : Effect :=
  match amount? c.args with
  | none => c.done (.complained (c.complaint "invalid option") 1)
  | some (n, inBytes, files) =>
    let fromStart := n.toList.head? = some '+'
    let n := ((String.ofList (n.toList.dropWhile (· = '+'))).toNat?).getD 0
    let cut {α : Type} (xs : List α) : List α :=
      if fromStart then xs.drop (n - 1) else xs.drop (xs.length - n)
    filter c (cannotOpen c.name) files 1 fun bytes => if inBytes then cut bytes
      else (cut (linesOf bytes)).flatten

/-! ## Counting -/

/-- How many words bytes hold. -/
def wordCount (bytes : List UInt8) : Nat :=
  let isBlank (b : UInt8) : Bool := b = 32 || (9 ≤ b && b ≤ 13)
  (bytes.foldl
    (fun (n, inside) b => if isBlank b then (n, false) else (if inside then n else n + 1, true))
    (0, false)).1

def wc (c : Call) : Effect :=
  let options := c.args.takeWhile fun arg => arg.toList.head? = some '-' && arg ≠ "-"
  let files := c.args.drop options.length
  let letters := options.flatMap fun option => option.toList.tail
  let wanted (letter : Char) : Bool := letters.isEmpty || letters.contains letter
  let counts (bytes : List UInt8) : List Nat :=
    (if wanted 'l' then [bytes.count 10] else []) ++
      (if wanted 'w' then [wordCount bytes] else []) ++
      if wanted 'c' || letters.contains 'm' then [bytes.length] else []
  let (bytes, complaints) := gather c (cannotRead c.name) files
  let width := if (counts bytes).length ≤ 1 then 1 else if files.isEmpty then 7
    else (toString bytes.length).length
  let padded (n : Nat) : String := "".pushn ' ' (width - (toString n).length) ++ toString n
  let line :=
    " ".intercalate ((counts bytes).map padded) ++ (files.head?.elim "" fun file => " " ++ file)
  if complaints.isEmpty then
    let o := Outcome.printed (line ++ "\n")
    if files.isEmpty then c.drained o else c.done o
  else c.done ⟨[⟨true, complaints⟩], .status 1⟩

/-! ## Searching -/

def literalPattern (text : List Char) : Pattern :=
  ⟨false, text.map fun c => ⟨.exactly c, false⟩, false⟩

/-- Whether a line has a part with a pattern. -/
def hasPart (p : Pattern) (line : List Char) : Bool :=
  let starts := if p.atStart then [line] else (List.range (line.length + 1)).map line.drop
  starts.any fun rest => (Pattern.matchLength? p.atEnd p.items rest).isSome

def grep (c : Call) : Effect :=
  let options :=
    c.args.takeWhile fun arg => arg.toList.head? = some '-' && arg.length > 1 && arg ≠ "-e"
  let letters := options.flatMap fun option => option.toList.tail
  let rest := c.args.drop options.length
  let rest := if rest.head? = some "-e" then rest.tail else rest
  let lower (text : List Char) : List Char :=
    if letters.contains 'i' then text.map Char.toLower else text
  match rest with
  | [] => c.done (.complained ("Usage: " ++ c.name ++ " [OPTION]... PATTERNS [FILE]...") 2)
  | pattern :: files =>
    match (if letters.contains 'F' then some (literalPattern (lower pattern.toList))
        else Pattern.ofText? (lower pattern.toList)) with
    | none => c.done (.complained (c.complaint "Unmatched [, [^, [:, [., or [=") 2)
    | some p =>
      let (bytes, complaints) := gather c (cannotRead c.name) files
      let found :=
        (linesOf bytes).filter fun line => hasPart p (lower (textOf line)) != letters.contains 'v'
      let ended := found.map fun line => if line.getLast? = some 10 then line else line ++ [10]
      let printed :=
        if letters.contains 'q' then []
        else if letters.contains 'c' then lineOf [toString found.length]
        else ended.flatten
      let complaints := if letters.contains 's' then [] else complaints
      let chunks :=
        (if complaints.isEmpty then [] else [⟨true, complaints⟩]) ++ (wrote printed).chunks
      let failed := files.any fun file => file ≠ "-" && (c.place.bytesOf file).toOption.isNone
      let o : Outcome := ⟨chunks, .status (if failed then 2 else if found.isEmpty then 1 else 0)⟩
      if files.isEmpty then c.drained o else c.done o

/-! ## Translating -/

/-- The characters of a set of `tr`. Every round takes a character. -/
def setOf : Nat → List Char → List Char
  | 0, _ => []
  | _, [] => []
  | rounds + 1, '\\' :: c :: rest =>
    let own := if c = 'n' then '\n' else if c = 't' then '\t' else if c = 'r' then '\r'
      else if c = '0' then '\x00' else c
    own :: setOf rounds rest
  | rounds + 1, a :: '-' :: b :: rest =>
    (List.range (b.toNat + 1 - a.toNat)).map
      (fun i => Char.ofNat (a.toNat + i)) ++ setOf rounds rest
  | rounds + 1, c :: rest => c :: setOf rounds rest

/-- Replaces or drops characters. -/
def tr (c : Call) : Effect :=
  let set (text : String) : List Char := setOf (text.length + 1) text.toList
  let edited? : Option (List Char → List Char) :=
    match c.args with
    | ["-d", gone] => some fun text => text.filter fun x => !(set gone).contains x
    | [old, new] =>
      some fun text => text.map fun x =>
        match (set old).findIdx? (· = x) with
        | some i => ((set new)[i]? <|> (set new).getLast?).getD x
        | none => x
    | _ => none
  match edited? with
  | some edit =>
    c.drained (wrote (Utf8.encode (String.ofList (edit (Utf8.decodeLossy c.input).toList))))
  | none =>
    c.done (.complained
      (c.complaint "missing operand\nTry '" ++ c.name ++ " --help' for more information.") 1)

/-! ## Orders -/

/-- Whether bytes come before others, or are the same. -/
def bytesLe : List UInt8 → List UInt8 → Bool
  | [], _ => true
  | _ :: _, [] => false
  | a :: as, b :: bs => a < b || (a = b && bytesLe as bs)

def sort (c : Call) : Effect :=
  let options := c.args.takeWhile fun arg => arg.toList.head? = some '-' && arg.length > 1
  let letters := options.flatMap fun option => option.toList.tail
  filter c (fun file f => c.complaint "cannot read: " ++ file ++ ": " ++ faultText f)
    (c.args.drop options.length) 2 fun bytes =>
    let lines :=
      (linesOf bytes).map fun line => if line.getLast? = some 10 then line.dropLast else line
    let sorted := lines.mergeSort bytesLe
    let sorted := if letters.contains 'u' then sorted.eraseDups else sorted
    ((if letters.contains 'r' then sorted.reverse else sorted).map (· ++ [10])).flatten

/-- Lines without those that repeat the one before. -/
def withoutRepeats : List (List UInt8) → List (List UInt8)
  | a :: b :: rest => if a = b then withoutRepeats (b :: rest) else a :: withoutRepeats (b :: rest)
  | lines => lines

def uniq (c : Call) : Effect :=
  filter c (cannotRead c.name) c.args 1 fun bytes => (withoutRepeats (linesOf bytes)).flatten

def seq (c : Call) : Effect :=
  let numbers : List Nat := c.args.filterMap (·.toNat?)
  let range := match numbers with
    | [last] => (List.range last).map (· + 1)
    | [first, last] => (List.range (last + 1 - first)).map (· + first)
    | _ => []
  c.done (wrote (range.flatMap fun n => lineOf [toString n]))

/-- How often `yes` prints, which nobody reads to the end. -/
def manyTimes : Nat := 100000

/-- Prints a line again and again. -/
def yes (c : Call) : Effect :=
  let line := lineOf (if c.args.isEmpty then ["y"] else c.args)
  c.done (wrote (List.replicate (manyTimes / line.length) line).flatten)

/-! ## Editing -/

/-- Which lines a command of `sed` is for. -/
inductive Address where
  | every
  | number (n : Nat)
  | last
  | having (p : Pattern)
deriving Repr

/-- What a command of `sed` does with a line. -/
inductive Edit where
  | substitute (s : Substitution)
  | print
  | delete
  | quit
deriving Repr

/-- Reads the address of a command. -/
def address? (text : List Char) : Option (Address × List Char) :=
  let digits := text.takeWhile Char.isDigit
  match text with
  | '$' :: rest => some (.last, rest)
  | '/' :: rest => do
    let (p, rest) ← Substitution.upTo '/' rest
    return (.having (← Pattern.ofText? p), rest)
  | _ =>
    if digits.isEmpty then some (.every, text)
    else
      some (.number (digits.foldl (fun n c => n * 10 + (c.toNat - '0'.toNat)) 0),
        text.drop digits.length)

/-- Reads a command of `sed`. -/
def edit? (text : List Char) : Option (Address × Edit) := do
  let (a, rest) ← address? (text.dropWhile (· = ' '))
  match rest.dropWhile (· = ' ') with
  | ['p'] => some (a, .print)
  | ['d'] => some (a, .delete)
  | ['q'] => some (a, .quit)
  | rest => (Substitution.ofText? rest).map fun s => (a, .substitute s)

/-- Reads the commands of a script of `sed`, between line ends or semicolons if that makes sense. -/
def edits? (script : String) : Option (List (Address × Edit)) :=
  match edit? script.toList with
  | some e => some [e]
  | none =>
    let pieces := (Text.splitOn '\n' script.toList).flatMap (Text.splitOn ';')
    (pieces.filter fun piece => piece.any (· ≠ ' ')).mapM edit?

/-- Whether a line is one of those at an address. -/
def isAt (number : Nat) (isLast : Bool) (line : List Char) : Address → Bool
  | .every => true
  | .number n => n = number
  | .last => isLast
  | .having p => hasPart p line

/-- Edits a line: what it becomes if it is kept, the lines printed before it, and whether
the rest is left out. -/
def editLine (number : Nat) (isLast : Bool) :
    List (Address × Edit) → List Char → Option (List Char) × List (List Char) × Bool
  | [], line => (some line, [], false)
  | (a, e) :: rest, line =>
    if !isAt number isLast line a then editLine number isLast rest line
    else
      match e with
      | .substitute s => editLine number isLast rest (s.apply line)
      | .delete => (none, [], false)
      | .quit => (some line, [], true)
      | .print =>
        let (kept, printed, quits) := editLine number isLast rest line
        (kept, line :: printed, quits)

/-- Edits lines from the one with a number on. -/
def editLines (quiet : Bool) (edits : List (Address × Edit)) : Nat → List (List UInt8) → List UInt8
  | _, [] => []
  | number, line :: rest =>
    let (kept, printed, quits) := editLine number rest.isEmpty edits (textOf line)
    let shown := printed ++ if quiet then [] else kept.toList
    let ended := line.getLast? = some 10
    let bytes := (shown.map fun text => Utf8.encode (String.ofList text))
    let last := bytes.getLast?.map fun text => if ended then text ++ [10] else text
    (bytes.dropLast.map (· ++ [10])).flatten ++ last.getD [] ++ if quits then []
      else editLines quiet edits (number + 1) rest

def sed (c : Call) : Effect :=
  let quiet := c.args.head? = some "-n"
  let args := if quiet then c.args.tail else c.args
  let args := if args.head? = some "-e" then args.tail else args
  match args with
  | [] =>
    c.done (.complained
      ("Usage: " ++ c.name ++ " [OPTION]... \x7bscript-only-if-no-other-script\x7d [input-file]...")
      1)
  | script :: files =>
    match edits? script with
    | none => c.done (.complained (c.complaint "-e expression #1, char 1: unknown command") 1)
    | some edits =>
      filter c (fun file f => c.complaint "can't read " ++ file ++ ": " ++ faultText f) files 2
        fun bytes => editLines quiet edits 1 (linesOf bytes)

end FSharpWorkspace.Shell.Tool
