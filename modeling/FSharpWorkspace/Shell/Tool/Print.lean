import FSharpWorkspace.Shell.Outcome
/-!
# Printing words

The programs that print their arguments: `echo`, which in a shell reads escapes and as a program of
its own does not, and `printf`, which prints by a format.
-/

set_option autoImplicit false

namespace FSharpWorkspace.Shell.Tool

/-! ## Escapes -/

/-- Up to `count` octal digits at the front of a text, as a number. -/
def octal (count : Nat) (text : List Char) : Nat × List Char :=
  let digits := (text.take count).takeWhile fun c => '0' ≤ c && c ≤ '7'
  (digits.foldl (fun n c => n * 8 + (c.toNat - '0'.toNat)) 0, text.drop digits.length)

/-- The byte for a letter after a backslash. -/
def letterEscape? : Char → Option UInt8
  | 'a' => some 7
  | 'b' => some 8
  | 'f' => some 12
  | 'n' => some 10
  | 'r' => some 13
  | 't' => some 9
  | 'v' => some 11
  | '\\' => some 0x5C
  | _ => none

/-- The bytes of a text with its escapes read, and whether printing ends with it. Octal digits may
follow a zero, and, if not `words`, they may do without it. Every round takes a character. -/
def unescape (words : Bool) : Nat → List Char → List UInt8 × Bool
  | 0, _ => ([], false)
  | _, [] => ([], false)
  | rounds + 1, '\\' :: c :: rest =>
    let plain := fun (bytes : List UInt8) (rest : List Char) =>
      let (more, ends) := unescape words rounds rest
      (bytes ++ more, ends)
    match letterEscape? c with
    | some b => plain [b] rest
    | none =>
      if c = 'c' then ([], true)
      else if words && c = '0' then
        let (n, rest) := octal 3 rest
        plain [n.toUInt8] rest
      else if '0' ≤ c && c ≤ '7' then
        let (n, rest) := octal 3 (c :: rest)
        plain [n.toUInt8] rest
      else plain (0x5C :: String.utf8EncodeChar c) rest
  | rounds + 1, c :: rest =>
    let (more, ends) := unescape words rounds rest
    (String.utf8EncodeChar c ++ more, ends)

/-! ## Words in a line -/

def lineOf (words : List String) : List UInt8 := Utf8.encode (" ".intercalate words ++ "\n")

def wrote (bytes : List UInt8) : Outcome :=
  ⟨if bytes.isEmpty then [] else [⟨false, bytes⟩], .status 0⟩

/-- Prints words as a shell does: escapes are read, and `-n` leaves out the end of the line. -/
def shellEcho (args : List String) : Outcome :=
  let (bare, words) := match args with
    | "-n" :: words => (true, words)
    | words => (false, words)
  let text := (" ".intercalate words).toList
  let (bytes, ends) := unescape true (text.length + 1) text
  wrote (if bare || ends then bytes else bytes ++ [10])

/-- Prints words as they are; `-n` leaves out the end of the line, and `-e` has escapes read. -/
def echo : List String → Outcome
  | "-n" :: words => wrote (lineOf words).dropLast
  | "-e" :: words => shellEcho words
  | words => wrote (lineOf words)

/-! ## Formats -/

/-- How an argument is printed. -/
structure Directive where
  toLeft : Bool
  zeros : Bool
  signed : Bool
  width : Nat
  precision : Option Nat
  letter : Char
deriving Repr

/-- Reads a directive after its percent sign. -/
def directive? (text : List Char) : Option (Directive × List Char) :=
  let flags := text.takeWhile fun c => ['-', '+', ' ', '0', '#'].contains c
  let text := text.drop flags.length
  let width := text.takeWhile Char.isDigit
  let text := text.drop width.length
  let number (digits : List Char) : Nat :=
    digits.foldl (fun n c => n * 10 + (c.toNat - '0'.toNat)) 0
  let (precision, text) := match text with
    | '.' :: rest =>
      let digits := rest.takeWhile Char.isDigit
      (some (number digits), rest.drop digits.length)
    | text => (none, text)
  match text with
  | c :: rest =>
    some (⟨flags.contains '-', flags.contains '0', flags.contains '+', number width, precision, c⟩,
      rest)
  | [] => none

/-- A text filled up to the width of a directive. -/
def Directive.fill (d : Directive) (text : List Char) (numeric : Bool) : List Char :=
  let missing := d.width - text.length
  if d.toLeft then text ++ List.replicate missing ' '
  else if d.zeros && numeric then
    match text with
    | '-' :: digits => '-' :: List.replicate missing '0' ++ digits
    | digits => List.replicate missing '0' ++ digits
  else List.replicate missing ' ' ++ text

/-- The number that an argument is, in the notations of the shell, and whether it is one. -/
def numberOf (arg : String) : Int × Bool :=
  let (negative, digits) := match arg.toList with
    | '-' :: rest => (true, rest)
    | '+' :: rest => (false, rest)
    | text => (false, text)
  let (base, digits) : Nat × List Char := match digits with
    | '0' :: 'x' :: rest => (16, rest)
    | '0' :: 'X' :: rest => (16, rest)
    | '0' :: d :: rest => (8, d :: rest)
    | text => (10, text)
  let value (c : Char) : Nat :=
    if c.isDigit then c.toNat - '0'.toNat else c.toLower.toNat - 'a'.toNat + 10
  let good := digits.takeWhile fun c => c.isAlphanum && value c < base
  let n : Int := good.foldl (fun n c => n * base + value c) 0
  (if negative then -n else n, good.length = digits.length && (!digits.isEmpty || arg.isEmpty))

def digitsIn (base : Nat) (n : Nat) : List Char := Nat.toDigits base n

/-- What a format has printed so far. -/
structure Printed where
  bytes : List UInt8
  complaints : List UInt8
  args : List String
  /-- Whether an argument was asked for. -/
  asked : Bool
  ends : Bool

/-- Prints a number as its directive says. -/
def Directive.number (d : Directive) (arg : String) : List Char × Option String :=
  let (n, isNumber) := numberOf arg
  let complaint := if isNumber then none else some (arg ++ ": expected numeric value")
  let unsigned := (n % UInt64.size).toNat
  let text : List Char := match d.letter with
    | 'x' => digitsIn 16 unsigned
    | 'X' => (digitsIn 16 unsigned).map Char.toUpper
    | 'o' => digitsIn 8 unsigned
    | 'u' => digitsIn 10 unsigned
    | _ => (if n < 0 then ['-'] else if d.signed then ['+'] else []) ++ digitsIn 10 n.natAbs
  (d.fill text true, complaint)

/-- Prints an argument as its directive says, and whether printing ends with it. -/
def Directive.print (d : Directive) (arg : String) : List UInt8 × Option String × Bool :=
  match d.letter with
  | 's' =>
    let text := match d.precision with
      | some n => arg.toList.take n
      | none => arg.toList
    (Utf8.encode (String.ofList (d.fill text false)), none, false)
  | 'b' =>
    let (bytes, ends) := unescape true (arg.length + 1) arg.toList
    (bytes, none, ends)
  | 'c' => (Utf8.encode (String.ofList (d.fill (arg.toList.take 1) false)), none, false)
  | c =>
    if ['d', 'i', 'u', 'x', 'X', 'o'].contains c then
      let (text, complaint) := d.number arg
      (Utf8.encode (String.ofList text), complaint, false)
    else ([], some ("%" ++ c.toString ++ ": invalid directive"), true)

/-- Prints by a format as far as it goes once. Every round takes a character. -/
def formatOnce : Nat → List Char → Printed → Printed
  | 0, _, p => p
  | _, [], p => p
  | rounds + 1, '%' :: '%' :: rest, p =>
    formatOnce rounds rest { p with bytes := p.bytes ++ [0x25] }
  | rounds + 1, '%' :: rest, p =>
    match directive? rest with
    | none => { p with complaints := Utf8.encode "missing format character\n", ends := true }
    | some (d, rest) =>
      let (bytes, complaint, ends) := d.print (p.args.head?.getD "")
      let complaints := complaint.elim [] fun text => Utf8.encode (text ++ "\n")
      let p : Printed := ⟨p.bytes ++ bytes, p.complaints ++ complaints, p.args.tail, true, ends⟩
      if ends then p else formatOnce rounds rest p
  | rounds + 1, '\\' :: c :: rest, p =>
    let taken :=
      if '0' ≤ c && c ≤ '7' then (rest.take 2).takeWhile fun d => '0' ≤ d && d ≤ '7' else []
    let (bytes, ends) := unescape false 2 ('\\' :: c :: taken)
    let p := { p with bytes := p.bytes ++ bytes, ends }
    if ends then p else formatOnce rounds (rest.drop taken.length) p
  | rounds + 1, c :: rest, p =>
    formatOnce rounds rest { p with bytes := p.bytes ++ String.utf8EncodeChar c }

/-- Prints by a format, again and again while arguments are left. -/
def format (pattern : List Char) : Nat → Printed → Printed
  | 0, p => p
  | rounds + 1, p =>
    let p := formatOnce (pattern.length + 1) pattern { p with asked := false }
    if p.ends || !p.asked || p.args.isEmpty then p else format pattern rounds p

/-- Prints by a format. What is wrong with an argument is complained about under the name `name`. -/
def printf (name : String) (args : List String) : Outcome :=
  match (if args.head? = some "--" then args.tail else args) with
  | [] => .complained (name ++ "printf: usage: printf format [arg ...]") 2
  | pattern :: args =>
    let p := format pattern.toList (args.length + 1) ⟨[], [], args, false, false⟩
    if p.complaints.isEmpty then wrote p.bytes
    else
      let lines := (Text.splitOn 10 p.complaints).filter fun line => !line.isEmpty
      let complaints := lines.flatMap fun line => Utf8.encode (name ++ "printf: ") ++ line ++ [10]
      ⟨[⟨false, p.bytes⟩, ⟨true, complaints⟩], .status 1⟩

end FSharpWorkspace.Shell.Tool
