import FSharpWorkspace.Text.Quoted
import FSharpWorkspace.Toml.Scalar
/-!
# Configuration files

A file is a list of lines: headers, which open a table or add one to a list of tables, and
assignments to keys of the open table. `Toml.ofText?` reads a file, or refuses it: a key is
assigned once, a table is opened once, and neither a value nor a table made by dotted keys
can be opened later.

While a file is read, its tables are `Draft`s that remember how they came about.
-/

set_option autoImplicit false

namespace FSharpWorkspace.Toml

/-! ## Drafts -/

/-- What a key of a table stands for while a file is read. -/
inductive Draft where
  /-- A value that is complete. -/
  | value (v : Toml)
  /-- A table. `isOpen` says that no header has opened it yet, `isDotted` that
  dotted keys made it. -/
  | table (isOpen isDotted : Bool) (fields : List (String × Draft))
  /-- A list of tables, the latest first, each with its fields. -/
  | tables (items : List (List (String × Draft)))
deriving Inhabited

namespace Draft

/-- Fields with one of them set. -/
def setField (key : String) (d : Draft) : List (String × Draft) → List (String × Draft)
  | [] => [(key, d)]
  | (k, e) :: rest => if k = key then (k, d) :: rest else (k, e) :: setField key d rest

mutual

def toValue (d : Draft) : Toml :=
  match d with
  | .value v => v
  | .table _ _ fs => .table (toFields fs)
  | .tables items => .list (toTables items).reverse

def toFields (fs : List (String × Draft)) : List (String × Toml) :=
  match fs with
  | [] => []
  | (k, d) :: rest => (k, toValue d) :: toFields rest

def toTables (items : List (List (String × Draft))) : List Toml :=
  match items with
  | [] => []
  | fs :: rest => .table (toFields fs) :: toTables rest

end

/-- The fields of a table while they are changed, with the marks of the table. -/
structure Fields where
  isOpen : Bool
  isDotted : Bool
  fields : List (String × Draft)

/-- Changes the table to which keys lead from some fields. Tables on the way are made if need
be; on the way through a list of tables its latest one is taken. Dotted keys pass no table
that a header opened. -/
def edit (byDots : Bool) (change : Fields → Option Fields) : List String → Fields → Option Fields
  | [], t => change t
  | key :: rest, t =>
    let put := fun d => { t with fields := setField key d t.fields }
    match t.fields.lookup key with
    | none => do
      let t' ← edit byDots change rest ⟨true, byDots, []⟩
      return put (.table t'.isOpen t'.isDotted t'.fields)
    | some (.table isOpen isDotted fs) => do
      if byDots && !isOpen then none
      let t' ← edit byDots change rest ⟨isOpen, isDotted, fs⟩
      return put (.table t'.isOpen t'.isDotted t'.fields)
    | some (.tables (fs :: items)) => do
      let t' ← edit byDots change rest ⟨false, false, fs⟩
      return put (.tables (t'.fields :: items))
    | some _ => none

/-- Opens a table by a header. -/
def openTable (key : String) (t : Fields) : Option Fields :=
  match t.fields.lookup key with
  | none => some { t with fields := setField key (.table false false []) t.fields }
  | some (.table true false fs) =>
    some { t with fields := setField key (.table false false fs) t.fields }
  | some _ => none

/-- Adds a table to a list of tables by a header. -/
def addTable (key : String) (t : Fields) : Option Fields :=
  match t.fields.lookup key with
  | none => some { t with fields := setField key (.tables [[]]) t.fields }
  | some (.tables items) => some { t with fields := setField key (.tables ([] :: items)) t.fields }
  | some _ => none

/-- Assigns a value to a key that has none. `dotted` says that dots led to the table: no header may
have opened it, and none can from now on. -/
def assign (key : String) (v : Toml) (dotted : Bool) (t : Fields) : Option Fields :=
  if dotted && !t.isOpen then none
  else
    match t.fields.lookup key with
    | none => some { t with isDotted := dotted, fields := setField key (.value v) t.fields }
    | some _ => none

/-- Assigns a value to a dotted key. -/
def assignAt (keys : List String) (v : Toml) (t : Fields) : Option Fields :=
  match keys.getLast? with
  | none => none
  | some key => edit true (assign key v (keys.length > 1)) keys.dropLast t

end Draft

/-! ## Characters -/

/-- A step of reading: takes characters from the front of a text, or refuses it. -/
abbrev Reader (α : Type) := StateT (List Char) Option α

namespace Reader

variable {α : Type}

def refuse : Reader α := fun _ => none

def peek : Reader (Option Char) := fun text => some (text.head?, text)

def skip (count : Nat := 1) : Reader Unit := fun text => some ((), text.drop count)

def next : Reader Char := fun text =>
  match text with
  | [] => none
  | c :: rest => some (c, rest)

def mark (c : Char) : Reader Unit := do if (← next) ≠ c then refuse

def takeWhile (test : Char → Bool) : Reader (List Char) := fun text =>
  some (text.takeWhile test, text.dropWhile test)

def sees (start : String) : Reader Bool := fun text => some (start.toList.isPrefixOf text, text)

def blanks : Reader Unit := discard (takeWhile fun c => c = ' ' || c = '\t')

def isPrintable (c : Char) : Bool := c = '\t' || (0x20 ≤ c.toNat && c.toNat ≠ 0x7F)

def comment : Reader Unit := do if (← peek) = some '#' then discard (takeWhile isPrintable)

/-- Takes the end of a line, if it comes next. -/
def lineEnd? : Reader (Option (List Char)) := fun text =>
  match text with
  | '\n' :: rest => some (some ['\n'], rest)
  | '\r' :: '\n' :: rest => some (some ['\r', '\n'], rest)
  | text => some (none, text)

/-- Passes the end of a line, if it comes next, and says whether it did. -/
def lineEnd : Reader Bool := do return (← lineEnd?).isSome

/-- Passes blanks, comments and ends of lines. Every round takes a character. -/
def gapFrom : Nat → Reader Unit
  | 0 => return ()
  | rounds + 1 => do
    blanks
    comment
    if ← lineEnd then gapFrom rounds

def gap : Reader Unit := do gapFrom ((← get).length + 1)

/-! ## Strings -/

/-- The character with a code point in hexadecimal digits. -/
def codePoint (count : Nat) : Reader Char := do
  let digits := (← get).take count
  skip count
  if digits.length = count && digits.all (Scalar.isDigitOf 16) then
    let n := Scalar.valueOf 16 digits
    if n.isValidChar then return Char.ofNat n else refuse
  else refuse

def escape : Reader Char := do
  match ← next with
  | 'b' => return Char.ofNat 8
  | 't' => return '\t'
  | 'n' => return '\n'
  | 'f' => return Char.ofNat 12
  | 'r' => return '\r'
  | 'e' => return Char.ofNat 27
  | '"' => return '"'
  | '\\' => return '\\'
  | 'x' => codePoint 2
  | 'u' => codePoint 4
  | 'U' => codePoint 8
  | _ => refuse

/-- Takes a string of one line after its opening quote. Every round takes a character. -/
def basicFrom : Nat → List Char → Reader String
  | 0, _ => refuse
  | rounds + 1, done => do
    let plain ← takeWhile fun c => isPrintable c && c ≠ '"' && c ≠ '\\'
    match ← next with
    | '"' => return String.ofList (done ++ plain)
    | '\\' => basicFrom rounds (done ++ plain ++ [← escape])
    | _ => refuse

/-- Takes a string of one line after its opening quote. -/
def basicString : Reader String := do basicFrom ((← get).length + 1) []

/-- Takes a literal string of one line after its opening quote. -/
def literalString : Reader String := do
  let plain ← takeWhile fun c => isPrintable c && c ≠ '\''
  mark '\''
  return String.ofList plain

/-- Takes the quotes that end a string of several lines, and up to two more that belong to it. -/
def closing? (quote : Char) : Reader (Option (List Char)) := fun text =>
  let count := (text.takeWhile (· = quote)).length
  if count < 3 then some (none, text)
  else if count > 5 then none
  else some (some (List.replicate (count - 3) quote), text.drop count)

/-- Passes the rest of a line after a backslash, and the blanks and ends of lines after it. -/
def lineContinuation : Reader Unit := do
  blanks
  if ← lineEnd then discard (takeWhile fun c => c = ' ' || c = '\t' || c = '\n' || c = '\r')
  else refuse

/-- Takes a string of several lines after its opening quotes. Every round takes a character. -/
def longFrom (quote : Char) (escapes : Bool) : Nat → List Char → Reader String
  | 0, _ => refuse
  | rounds + 1, done => do
    let plain ← takeWhile fun c => isPrintable c && c ≠ quote && !(escapes && c = '\\')
    let done := done ++ plain
    match ← lineEnd? with
    | some ending => longFrom quote escapes rounds (done ++ ending)
    | none =>
      match ← closing? quote with
      | some more => return String.ofList (done ++ more)
      | none =>
        let c ← next
        if c = quote then longFrom quote escapes rounds (done ++ [c])
        else if escapes && c = '\\' then
          match ← peek with
          | some d =>
            if [' ', '\t', '\n', '\r'].contains d then
              lineContinuation
              longFrom quote escapes rounds done
            else longFrom quote escapes rounds (done ++ [← escape])
          | none => refuse
        else refuse

/-- Takes a string of several lines after its opening quotes; an end of line right after
them is no part of it. -/
def longString (quote : Char) (escapes : Bool) : Reader String := do
  discard lineEnd
  longFrom quote escapes ((← get).length + 1) []

/-! ## Keys -/

def isBare (c : Char) : Bool := c.isAlphanum || c = '_' || c = '-'

/-- Takes one part of a key. -/
def keyPart : Reader String := do
  match ← peek with
  | some '"' =>
    skip
    basicString
  | some '\'' =>
    skip
    literalString
  | _ =>
    let word ← takeWhile isBare
    if word.isEmpty then refuse else return String.ofList word

/-- Takes the further parts of a dotted key. Every round takes a character. -/
def keyFrom : Nat → List String → Reader (List String)
  | 0, _ => refuse
  | rounds + 1, done => do
    let part ← keyPart
    blanks
    if (← peek) = some '.' then
      skip
      blanks
      keyFrom rounds (done ++ [part])
    else return done ++ [part]

/-- How deep values may nest, and how many parts a key may have. -/
def nestingLimit : Nat := 80

def key : Reader (List String) := do
  blanks
  let parts ← keyFrom ((← get).length + 1) []
  if parts.length > nestingLimit then refuse
  return parts

/-! ## Values -/

def isWord (c : Char) : Bool := c.isAlphanum || ['_', '-', '+', '.', ':'].contains c

/-- Takes an unquoted value. A blank after a date joins it with the time that follows. -/
def scalar : Reader Toml := do
  let word ← takeWhile isWord
  let rest ← get
  let word ← (match rest with
    | ' ' :: d :: _ =>
      if d.isDigit && Scalar.isDate word then do
        skip
        return word ++ ' ' :: (← takeWhile isWord)
      else return word
    | _ => return word)
  match Scalar.ofWord? word with
  | some v => return v
  | none => refuse

/-- Takes the elements of a list after its opening bracket. Every round takes a character. -/
def listFrom (value : Reader Toml) : Nat → List Toml → Reader Toml
  | 0, _ => refuse
  | rounds + 1, done => do
    gap
    if (← peek) = some ']' then
      skip
      return .list done
    let v ← value
    gap
    match ← next with
    | ',' => listFrom value rounds (done ++ [v])
    | ']' => return .list (done ++ [v])
    | _ => refuse

def assignment (value : Reader Toml) : Reader (List String × Toml) := do
  let keys ← key
  mark '='
  blanks
  return (keys, ← value)

/-- Takes the fields of a table after its opening brace. Every round takes a character. -/
def tableFrom (value : Reader Toml) : Nat → Draft.Fields → Reader Toml
  | 0, _ => refuse
  | rounds + 1, done => do
    gap
    if (← peek) = some '\x7d' then
      skip
      return .table (Draft.toFields done.fields)
    let (keys, v) ← assignment value
    match Draft.assignAt keys v done with
    | none => refuse
    | some done =>
      gap
      match ← next with
      | ',' => tableFrom value rounds done
      | '\x7d' => return .table (Draft.toFields done.fields)
      | _ => refuse

/-- Takes a value in which others nest at most `depth` deep. -/
def valueIn (depth : Nat) : Reader Toml := do
  match ← peek with
  | some '"' =>
    if ← sees "\"\"\"" then
      skip 3
      return .text (← longString '"' true)
    else
      skip
      return .text (← basicString)
  | some '\'' =>
    if ← sees "'''" then
      skip 3
      return .text (← longString '\'' false)
    else
      skip
      return .text (← literalString)
  | some '[' =>
    match depth with
    | 0 => refuse
    | depth + 1 =>
      skip
      listFrom (valueIn depth) ((← get).length + 1) []
  | some '\x7b' =>
    match depth with
    | 0 => refuse
    | depth + 1 =>
      skip
      tableFrom (valueIn depth) ((← get).length + 1) ⟨false, false, []⟩
  | _ => scalar

def value : Reader Toml := valueIn nestingLimit

/-! ## Lines -/

/-- A file that is being read: its root table and the keys of the table that is open. -/
structure File where
  root : Draft.Fields
  opened : List String

/-- Applies a change to a file, if it allows it. -/
def apply (file : File) (change : Draft.Fields → Option Draft.Fields) : Reader File :=
  match change file.root with
  | some root => return { file with root }
  | none => refuse

/-- Takes a header. -/
def header (file : File) : Reader File := do
  let isList ← sees "[["
  skip (if isList then 2 else 1)
  let keys ← key
  mark ']'
  if isList then mark ']'
  match keys.getLast? with
  | none => refuse
  | some last =>
    let change := if isList then Draft.addTable last else Draft.openTable last
    let file ← apply file (Draft.edit false change keys.dropLast)
    return { file with opened := keys }

/-- Takes what stands on a line. -/
def line (file : File) : Reader File := do
  match ← peek with
  | some '[' => header file
  | _ =>
    let (keys, v) ← assignment value
    apply file (Draft.edit false (Draft.assignAt keys v) file.opened)

/-- Takes the end of a line or of the text, with a comment before it. -/
def endOfLine : Reader Unit := do
  blanks
  comment
  if !(← get).isEmpty && !(← lineEnd) then refuse

/-- Takes lines up to the end of the text. Every round takes a character. -/
def linesFrom : Nat → File → Reader File
  | 0, _ => refuse
  | rounds + 1, file => do
    gap
    if (← get).isEmpty then return file
    let file ← line file
    endOfLine
    linesFrom rounds file

end Reader

/-! ## Files -/

def dropByteOrderMark (text : List Char) : List Char :=
  if text.head? = some (Char.ofNat 0xFEFF) then text.tail else text

/-- The fields of the table that a file holds. -/
def ofText? (text : String) : Option (List (String × Toml)) := do
  let chars := dropByteOrderMark text.toList
  let start : Reader.File := ⟨⟨false, false, []⟩, []⟩
  let (file, _) ← (Reader.linesFrom (chars.length + 1) start).run chars
  return Draft.toFields file.root.fields

end FSharpWorkspace.Toml
