import FSharpWorkspace.Toml.Value
/-!
# Numbers, dates and times

A value that is not quoted is one word: `true`, `false`, an integer in base ten, two, eight or
sixteen, a number with floating point, or a date, a time, or both. Digits may be grouped by single
underscores. Integers have 64 bits, a floating-point number must not be too large, and days must
exist. Dates and times are kept as texts in one spelling.
-/

set_option autoImplicit false

namespace FSharpWorkspace.Toml.Scalar

/-! ## Numbers -/

/-- The digits of a number without the underscores between them; an underscore needs a
digit on both sides. -/
def ungroup? (isDigit : Char → Bool) : List Char → Option (List Char)
  | [] => none
  | [c] => if isDigit c then some [c] else none
  | c :: '_' :: rest => if isDigit c then (ungroup? isDigit rest).map (c :: ·) else none
  | c :: rest => if isDigit c then (ungroup? isDigit rest).map (c :: ·) else none

def digitValue (c : Char) : Nat :=
  if c.isDigit then c.toNat - '0'.toNat else c.toLower.toNat - 'a'.toNat + 10

def valueOf (base : Nat) (digits : List Char) : Nat :=
  digits.foldl (fun n c => n * base + digitValue c) 0

def isDigitOf (base : Nat) (c : Char) : Bool :=
  (c.isDigit || ('a' ≤ c.toLower && c.toLower ≤ 'f')) && digitValue c < base

/-- The decimal digits of a word, grouped or not. -/
def decimals? (word : List Char) : Option (List Char) := ungroup? Char.isDigit word

def plainDecimals? (word : List Char) : Option (List Char) :=
  (decimals? word).filter fun digits => digits.length = 1 || digits.head? ≠ some '0'

def integerOf? (n : Int) : Option Toml :=
  if -0x8000000000000000 ≤ n ∧ n < 0x8000000000000000 then some (.integer n) else none

/-- A word without its sign, and whether that is a minus. -/
def splitSign : List Char → Bool × List Char
  | '-' :: rest => (true, rest)
  | '+' :: rest => (false, rest)
  | word => (false, word)

def decimalInteger? (word : List Char) : Option Toml := do
  let (negative, rest) := splitSign word
  let n := valueOf 10 (← plainDecimals? rest)
  integerOf? (if negative then -n else n)

/-- An integer in another base. -/
def basedInteger? : List Char → Option Toml
  | '0' :: 'x' :: rest => do integerOf? (valueOf 16 (← ungroup? (isDigitOf 16) rest))
  | '0' :: 'o' :: rest => do integerOf? (valueOf 8 (← ungroup? (isDigitOf 8) rest))
  | '0' :: 'b' :: rest => do integerOf? (valueOf 2 (← ungroup? (isDigitOf 2) rest))
  | _ => none

def startsExponent (c : Char) : Bool := c = 'e' || c = 'E'

/-- The exponent of a word that starts with one. -/
def exponent? (word : List Char) : Option Int := do
  let (negative, rest) := splitSign word.tail
  let n := valueOf 10 (← decimals? rest)
  return if negative then -n else n

/-- A finite number with floating point, without its sign. -/
def magnitude? (word : List Char) : Option Magnitude := do
  let whole := word.takeWhile fun c => c ≠ '.' && !startsExponent c
  let rest := word.drop whole.length
  let wholeDigits ← plainDecimals? whole
  let (fraction, rest) := match rest with
    | '.' :: rest =>
      let fraction := rest.takeWhile fun c => !startsExponent c
      (some fraction, rest.drop fraction.length)
    | _ => (none, rest)
  let fractionDigits ← match fraction with
    | some f => decimals? f
    | none => some []
  let e ← if rest.isEmpty then some 0 else exponent? rest
  if fraction.isNone && rest.isEmpty then none
  match Magnitude.ofDecimal (valueOf 10 (wholeDigits ++ fractionDigits)) (e - fractionDigits.length)
    with
  | .infinite => none
  | m => some m

def float? (word : List Char) : Option Toml :=
  let (negative, rest) := splitSign word
  if rest = "inf".toList then some (.float (.number negative .infinite))
  else if rest = "nan".toList then some (.float .nan)
  else (magnitude? rest).map fun m => .float (.number negative m)

/-! ## Dates and times -/

/-- A number of a fixed count of digits at the start of a word. -/
def fixed? (count : Nat) (word : List Char) : Option (Nat × List Char) :=
  let digits := word.take count
  if digits.length = count && digits.all Char.isDigit then some (valueOf 10 digits, word.drop count)
  else none

/-- What follows a mark. -/
def after? (mark : Char) : List Char → Option (List Char)
  | c :: rest => if c = mark then some rest else none
  | [] => none

def isLeap (year : Nat) : Bool := year % 4 = 0 && (year % 100 ≠ 0 || year % 400 = 0)

/-- How many days a month has. -/
def daysIn (year month : Nat) : Nat :=
  if month = 2 then if isLeap year then 29 else 28
  else if [4, 6, 9, 11].contains month then 30
  else 31

def date? (word : List Char) : Option (String × List Char) := do
  let (year, rest) ← fixed? 4 word
  let (month, rest) ← fixed? 2 (← after? '-' rest)
  let (day, rest) ← fixed? 2 (← after? '-' rest)
  if 1 ≤ month && month ≤ 12 && 1 ≤ day && day ≤ daysIn year month then
    some (String.ofList (word.take 10), rest)
  else none

/-- The fraction of a second that was written: at most nine digits, without zeros at the end, but
one digit at least. -/
def fractionText (digits : List Char) : String :=
  let kept := ((digits.take 9).reverse.dropWhile (· = '0')).reverse
  "." ++ String.ofList (if kept.isEmpty then ['0'] else kept)

/-- A time at the start of a word. Seconds, and a fraction of them, may be left out. -/
def time? (word : List Char) : Option (String × List Char) := do
  let (hour, rest) ← fixed? 2 word
  let (minute, rest) ← fixed? 2 (← after? ':' rest)
  if hour > 23 || minute > 59 then none
  match after? ':' rest with
  | none => some (String.ofList (word.take 5), rest)
  | some rest =>
    let (second, rest) ← fixed? 2 rest
    if second > 60 then none
    match rest with
    | '.' :: rest =>
      let digits := rest.takeWhile Char.isDigit
      if digits.isEmpty then none
      else some (String.ofList (word.take 8) ++ fractionText digits, rest.drop digits.length)
    | _ => some (String.ofList (word.take 8), rest)

/-- The offset from universal time that a word is. -/
def offset? (word : List Char) : Option String :=
  match word with
  | [] => some ""
  | ['z'] => some "Z"
  | ['Z'] => some "Z"
  | sign :: rest => do
    if sign ≠ '+' && sign ≠ '-' then none
    let (hour, rest) ← fixed? 2 rest
    let (minute, rest) ← fixed? 2 (← after? ':' rest)
    if hour > 23 || minute > 59 || !rest.isEmpty then none
    let sign := if hour = 0 && minute = 0 then '+' else sign
    some (String.ofList (sign :: word.tail))

def isDate (word : List Char) : Bool := (date? word).any (·.2.isEmpty)

/-- A date, a time, or both with an optional offset. -/
def moment? (word : List Char) : Option Toml :=
  match date? word with
  | some (date, []) => some (.text date)
  | some (date, mark :: rest) => do
    if mark ≠ 'T' && mark ≠ 't' && mark ≠ ' ' then none
    let (time, rest) ← time? rest
    return .text (date ++ "T" ++ time ++ (← offset? rest))
  | none =>
    match time? word with
    | some (time, []) => some (.text time)
    | _ => none

def ofWord? (word : List Char) : Option Toml :=
  if word = "true".toList then some (.flag true)
  else if word = "false".toList then some (.flag false)
  else (decimalInteger? word).or ((basedInteger? word).or ((float? word).or (moment? word)))

end FSharpWorkspace.Toml.Scalar
