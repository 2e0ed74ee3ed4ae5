import FSharpWorkspace.Json.Fault
import FSharpWorkspace.Text.Utf8
/-!
# Reading JSON texts

A `Reader` consumes bytes from the front of a text, or stops at the first fault. Values that are
wanted are read in full: strings must be text, numbers must fit. Values that are not wanted are only
skipped (`skipValue`): nesting is not limited, a string may hold half of a surrogate pair, a number
may be of any size.

A fault is placed either before the next byte (`fail`) or after it (`failAfterNext`).
-/

set_option autoImplicit false

namespace FSharpWorkspace.Json

/-- A step of reading: takes bytes from the front of a text, or stops at a fault. -/
abbrev Reader (α : Type) := StateT (List UInt8) (Except Fault) α

namespace Reader

variable {α : Type}

/-! ## Bytes -/

def fail (cause : Cause) : Reader α := fun bytes => .error ⟨cause, bytes⟩

/-- Stops after the next byte, if there is one. -/
def failAfterNext (cause : Cause) : Reader α := fun bytes => .error ⟨cause, bytes.drop 1⟩

def peek : Reader (Option Char) :=
  fun bytes => .ok (bytes.head?.map fun b => Char.ofNat b.toNat, bytes)

def skip : Reader Unit := fun bytes => .ok ((), bytes.drop 1)

def next : Reader (Option Char) := do
  let c ← peek
  skip
  return c

def nextOr (cause : Cause) : Reader Char := do
  match ← next with
  | some c => return c
  | none => fail cause

def takeWhile (test : UInt8 → Bool) : Reader (List UInt8) :=
  fun bytes => .ok (bytes.takeWhile test, bytes.dropWhile test)

def isBlank (b : UInt8) : Bool := b = 0x20 || b = 0x0A || b = 0x09 || b = 0x0D

def peekToken : Reader (Option Char) := do
  discard (takeWhile isBlank)
  peek

def isDigit (b : UInt8) : Bool := 0x30 ≤ b && b ≤ 0x39

def digits : Reader (List Nat) := do return (← takeWhile isDigit).map (·.toNat - 0x30)

/-- Takes the letters of a word. -/
def word : List Char → Reader Unit
  | [] => return ()
  | c :: rest => do
    if (← nextOr .endInValue) = c then word rest else fail .unknownWord

/-! ## Escapes -/

/-- The value of a hexadecimal digit. -/
def hexValue? (b : UInt8) : Option Nat :=
  if 0x30 ≤ b && b ≤ 0x39 then some (b.toNat - 0x30)
  else if 0x41 ≤ b && b ≤ 0x46 then some (b.toNat - 0x37)
  else if 0x61 ≤ b && b ≤ 0x66 then some (b.toNat - 0x57)
  else none

/-- Takes four hexadecimal digits. -/
def hexUnit : Reader Nat := fun bytes =>
  match bytes with
  | a :: b :: c :: d :: rest =>
    match [a, b, c, d].mapM hexValue? with
    | some ds => .ok (ds.foldl (fun n d => 16 * n + d) 0, rest)
    | none => .error ⟨.badEscape, rest⟩
  | _ => .error ⟨.endInString, []⟩

/-- The character after a backslash that stands for one character. -/
def simpleEscape? : Char → Option Char
  | '"' => some '"'
  | '\\' => some '\\'
  | '/' => some '/'
  | 'b' => some (Char.ofNat 8)
  | 'f' => some (Char.ofNat 12)
  | 'n' => some '\n'
  | 'r' => some '\r'
  | 't' => some '\t'
  | _ => none

/-- Takes the character that must come next in a surrogate pair. -/
def pairMark (mark : Char) : Reader Unit := do
  match ← peek with
  | none => fail .endInString
  | some c =>
    skip
    if c = mark then return () else fail .cutEscape

/-- Takes the digits of a code point. A leading half of a pair needs the trailing half after it. -/
def codePoint : Reader Char := do
  let n ← hexUnit
  if 0xDC00 ≤ n && n ≤ 0xDFFF then fail .loneSurrogate
  else if 0xD800 ≤ n && n ≤ 0xDBFF then
    pairMark '\\'
    pairMark 'u'
    let m ← hexUnit
    if 0xDC00 ≤ m && m ≤ 0xDFFF then
      return Char.ofNat (0x10000 + (n - 0xD800) * 0x400 + (m - 0xDC00))
    else fail .loneSurrogate
  else return Char.ofNat n

/-- Takes what follows a backslash. -/
def escape : Reader (List UInt8) := do
  let c ← nextOr .endInString
  if c = 'u' then return String.utf8EncodeChar (← codePoint)
  else
    match simpleEscape? c with
    | some d => return String.utf8EncodeChar d
    | none => fail .badEscape

/-- Passes what follows a backslash. -/
def skipEscape : Reader Unit := do
  let c ← nextOr .endInString
  if c = 'u' then discard hexUnit
  else if (simpleEscape? c).isSome then return ()
  else fail .badEscape

/-! ## Strings -/

def isPlain (b : UInt8) : Bool := 0x20 ≤ b && b ≠ 0x22 && b ≠ 0x5C

/-- Takes the bytes of a string up to its closing quote. Every round takes a byte, so the number of
unread bytes bounds the rounds. -/
def stringBytes : Nat → List UInt8 → Reader (List UInt8)
  | 0, _ => fail .endInString
  | rounds + 1, done => do
    let plain ← takeWhile isPlain
    match ← peek with
    | none => fail .endInString
    | some '"' =>
      skip
      return done ++ plain
    | some '\\' =>
      skip
      stringBytes rounds (done ++ plain ++ (← escape))
    | some _ => failAfterNext .controlCharacter

/-- Takes a string after its opening quote. That it is no text comes to light at its end; the fault
is placed after the first byte that is part of no character. -/
def string : Reader String := do
  let start ← get
  let bytes ← stringBytes (start.length + 1) []
  match Utf8.decode? bytes with
  | some text => return text
  | none =>
    set (start.drop (Utf8.soundLength start))
    failAfterNext .badCodePoint

/-- Passes the bytes of a string up to its closing quote. -/
def skipStringBytes : Nat → Reader Unit
  | 0 => fail .endInString
  | rounds + 1 => do
    discard (takeWhile isPlain)
    match ← peek with
    | none => fail .endInString
    | some '"' => skip
    | some '\\' =>
      skip
      skipEscape
      skipStringBytes rounds
    | some _ => fail .controlCharacter

/-- Passes a string after its opening quote. -/
def skipString : Reader Unit := do skipStringBytes ((← get).length + 1)

/-! ## Numbers -/

/-- A number as it was written: as an integer, or with floating point. -/
inductive Number where
  | integer (n : Int)
  | float (x : Binary64)
deriving DecidableEq, Repr

/-- The greatest significand that is kept exactly. -/
def maxSignificand : Nat := UInt64.size - 1

/-- The greatest exponent that is kept. -/
def maxExponent : Nat := 0x7FFFFFFF

/-- Digits gathered into a significand for as long as they fit; then how many were gathered, and how
many were left out. -/
def gather (start : Nat) : List Nat → Nat × Nat × Nat
  | [] => (start, 0, 0)
  | d :: ds =>
    if start * 10 + d > maxSignificand then (start, 0, ds.length + 1)
    else
      let (n, gathered, left) := gather (start * 10 + d) ds
      (n, gathered + 1, left)

/-- Scales a number by a power of ten in steps that the format can hold; `none` if
it grows too large. -/
def scaleBy : Nat → Magnitude → Int → Option Magnitude
  | 0, _, _ => none
  | rounds + 1, x, exponent =>
    let power := Magnitude.ofDecimal 1 exponent.natAbs
    if exponent.natAbs ≤ 308 then
      if exponent ≥ 0 then
        match x.mul power with
        | .infinite => none
        | y => some y
      else some (x.div power)
    else if x.isZero then some x
    else if exponent ≥ 0 then none
    else scaleBy rounds (x.div (.ofDecimal 1 308)) (exponent + 308)

/-- The number `significand · 10 ^ exponent`, rounded at every step of scaling. -/
def float (negative : Bool) (significand : Nat) (exponent : Int) : Reader Number := do
  match scaleBy (exponent.natAbs + 2) (.ofRatio significand 1) exponent with
  | some x => return .float (.number negative x)
  | none => fail .numberOutOfRange

/-- Takes an exponent after its letter. -/
def exponent (negative : Bool) (significand : Nat) (start : Int) : Reader Number := do
  skip
  let down ← (do
    match ← peek with
    | some '+' =>
      skip
      return false
    | some '-' =>
      skip
      return true
    | _ => return false)
  let first ← nextOr .endInValue
  if !first.isDigit then fail .badNumber
  let before ← get
  let ds ← digits
  let value := ds.foldl (fun n d => n * 10 + d) (first.toNat - 0x30)
  if value > maxExponent then
    if significand ≠ 0 && !down then
      -- the fault is placed after the digit that was too much
      set (before.drop (exceeding (first.toNat - 0x30) ds))
      fail .numberOutOfRange
    else return .float (.number negative (.ofRatio 0 1))
  else if down then float negative significand (max (start - value) (-0x80000000))
  else float negative significand (min (start + value) maxExponent)
where
  /-- How many digits may be read before the exponent is too great, counting the
  one that makes it so. -/
  exceeding (n : Nat) : List Nat → Nat
    | [] => 0
    | d :: ds => if n * 10 + d > maxExponent then 1 else exceeding (n * 10 + d) ds + 1

def optionalExponent (negative : Bool) (significand : Nat) (start : Int) : Reader Number := do
  match ← peek with
  | some 'e' => exponent negative significand start
  | some 'E' => exponent negative significand start
  | _ => float negative significand start

/-- Takes a point and the digits after it. -/
def fraction (negative : Bool) (significand : Nat) (start : Int) : Reader Number := do
  skip
  let ds ← digits
  let (n, gathered, left) := gather significand ds
  if gathered = 0 && left = 0 then
    match ← peek with
    | some _ => failAfterNext .badNumber
    | none => fail .endInValue
  else optionalExponent negative n (start - gathered)

/-- Takes a number whose sign has been read. -/
def number (negative : Bool) : Reader Number := do
  match ← peek with
  | none => fail .endInValue
  | some c =>
    if !c.isDigit then
      skip
      fail .badNumber
    else
      let ds ← (if c = '0' then do skip; return [0] else digits)
      if c = '0' && ((← get).head?.map isDigit).getD false then failAfterNext .badNumber
      let (n, _, left) := gather 0 ds
      match ← peek with
      | some '.' => fraction negative n left
      | some 'e' => exponent negative n left
      | some 'E' => exponent negative n left
      | _ =>
        if left > 0 then float negative n left
        else if !negative then return .integer n
        else if n = 0 || n > 0x8000000000000000 then return .float (.number true (.ofRatio n 1))
        else return .integer (-n)

/-- Passes an exponent after its letter. -/
def skipExponent : Reader Unit := do
  skip
  match ← peek with
  | some '+' => skip
  | some '-' => skip
  | _ => pure ()
  match ← next with
  | some c => if c.isDigit then discard digits else fail .badNumber
  | none => fail .badNumber

def skipOptionalExponent : Reader Unit := do
  match ← peek with
  | some 'e' => skipExponent
  | some 'E' => skipExponent
  | _ => return ()

/-- Passes a number whose sign has been read. -/
def skipNumber : Reader Unit := do
  match ← peek with
  | none => fail .badNumber
  | some c =>
    if !c.isDigit then
      skip
      fail .badNumber
    else
      if c = '0' then skip else discard digits
      if c = '0' && ((← get).head?.map isDigit).getD false then failAfterNext .badNumber
      match ← peek with
      | some '.' =>
        skip
        if (← digits).isEmpty then failAfterNext .badNumber else skipOptionalExponent
      | _ => skipOptionalExponent

/-! ## Values that are not wanted -/

/-- A list or an object whose end has not been read. -/
inductive Frame where
  | list
  | object
deriving DecidableEq, Repr

namespace Frame

def closing : Frame → Char
  | list => ']'
  | object => '\x7d'

/-- The text ended in the frame. -/
def ended : Frame → Cause
  | list => .endInList
  | object => .endInObject

/-- Neither a comma nor the end of the frame. -/
def notEnded : Frame → Cause
  | list => .noListEnd
  | object => .noObjectEnd

end Frame

/-- Passes one value without parts, or the start of one with parts. -/
def skipStart : Reader (Option Frame) := do
  match ← peekToken with
  | none => fail .endInValue
  | some c =>
    match c with
    | 'n' =>
      skip
      word ['u', 'l', 'l']
      return none
    | 't' =>
      skip
      word ['r', 'u', 'e']
      return none
    | 'f' =>
      skip
      word ['a', 'l', 's', 'e']
      return none
    | '-' =>
      skip
      skipNumber
      return none
    | '"' =>
      skip
      skipString
      return none
    | '[' =>
      skip
      return some .list
    | '\x7b' =>
      skip
      return some .object
    | _ =>
      if c.isDigit then
        skipNumber
        return none
      else failAfterNext .noValue

/-- Passes the ends of frames up to the place where the next part of a frame starts. The flag
says that a part of the innermost frame has just been passed. The answer holds the frames
that are still open. -/
def skipEnds : Bool → List Frame → Reader (List Frame)
  | _, [] => return []
  | afterPart, frame :: outer => do
    match ← peekToken with
    | none => failAfterNext frame.ended
    | some c =>
      if c = ',' && afterPart then
        skip
        return frame :: outer
      else if c = frame.closing then
        skip
        skipEnds true outer
      else if afterPart then failAfterNext frame.notEnded
      else return frame :: outer

/-- Passes the key of the next part of an object. -/
def skipKey : Reader Unit := do
  match ← peekToken with
  | some '"' =>
    skip
    skipString
    match ← peekToken with
    | some ':' => skip
    | some _ => failAfterNext .noColon
    | none => fail .endInObject
  | some _ => failAfterNext .keyNotString
  | none => fail .endInObject

/-- Passes values until no frame is open. Every round takes a byte. -/
def skipParts : Nat → List Frame → Reader Unit
  | 0, _ => fail .endInValue
  | rounds + 1, frames => do
    let frames ← (do
      match ← skipStart with
      | none => skipEnds true frames
      | some frame => skipEnds false (frame :: frames))
    match frames with
    | [] => return ()
    | .list :: _ => skipParts rounds frames
    | .object :: _ =>
      skipKey
      skipParts rounds frames

def skipValue : Reader Unit := do skipParts ((← get).length + 1) []

/-! ## Values that are wanted -/

/-- Stops because a value of another type stands here; a value without parts is read first. -/
def wrongType (expected : String) : Reader α := do
  match ← peek with
  | some 'n' =>
    skip
    word ['u', 'l', 'l']
    fail (.wrongType .null expected)
  | some 't' =>
    skip
    word ['r', 'u', 'e']
    fail (.wrongType (.boolean true) expected)
  | some 'f' =>
    skip
    word ['a', 'l', 's', 'e']
    fail (.wrongType (.boolean false) expected)
  | some '-' =>
    skip
    fail (.wrongType (ofNumber (← number true)) expected)
  | some '"' =>
    skip
    fail (.wrongType (.string (← string)) expected)
  | some '[' => fail (.wrongType .list expected)
  | some '\x7b' => fail (.wrongType .object expected)
  | some c =>
    if c.isDigit then fail (.wrongType (ofNumber (← number false)) expected)
    else failAfterNext .noValue
  | none => failAfterNext .noValue
where
  /-- A number where another type was expected. -/
  ofNumber : Number → Found
    | .integer n => .integer n
    | .float x => .float x

/-- Takes a string. -/
def stringValue (expected : String) : Reader String := do
  match ← peekToken with
  | none => fail .endInValue
  | some '"' =>
    skip
    string
  | some _ => wrongType expected

/-- Takes `null`, or a value. -/
def optional (value : Reader α) : Reader (Option α) := do
  match ← peekToken with
  | some 'n' =>
    skip
    word ['u', 'l', 'l']
    return none
  | _ => return some (← value)

/-- Whether a list has another element; `first` says that none was read. -/
def hasElement (first : Bool) : Reader Bool := do
  match ← peekToken with
  | none => fail .endInList
  | some ']' => return false
  | some c =>
    if first then return true
    else if c = ',' then
      skip
      match ← peekToken with
      | some ']' => failAfterNext .trailingComma
      | some _ => return true
      | none => fail .endInValue
    else failAfterNext .noListEnd

/-- Takes the end of a list. -/
def listEnd : Reader Unit := do
  match ← peekToken with
  | some ']' => skip
  | some ',' =>
    skip
    match ← peekToken with
    | some ']' => failAfterNext .trailingComma
    | _ => failAfterNext .trailingCharacters
  | some _ => failAfterNext .trailingCharacters
  | none => fail .endInList

/-- Takes the elements of a list. Every round takes a byte. -/
def elements (value : Reader α) : Nat → List α → Reader (List α)
  | 0, _ => fail .endInList
  | rounds + 1, done => do
    if ← hasElement done.isEmpty then elements value rounds (done ++ [← value]) else return done

/-- Takes a list of values. -/
def list (value : Reader α) : Reader (List α) := do
  match ← peekToken with
  | none => fail .endInValue
  | some '[' =>
    skip
    let values ← elements value ((← get).length + 1) []
    listEnd
    return values
  | some _ => wrongType "a sequence"

/-- Whether an object has another field; `first` says that none was read. -/
def hasField (first : Bool) : Reader Bool := do
  match ← peekToken with
  | none => fail .endInObject
  | some '\x7d' => return false
  | some c =>
    if first then
      if c = '"' then return true else failAfterNext .keyNotString
    else if c = ',' then
      skip
      match ← peekToken with
      | some '"' => return true
      | some '\x7d' => failAfterNext .trailingComma
      | some _ => failAfterNext .keyNotString
      | none => fail .endInValue
    else failAfterNext .noObjectEnd

/-- Takes the colon between the name and the value of a field. -/
def colon : Reader Unit := do
  match ← peekToken with
  | some ':' => skip
  | some _ => failAfterNext .noColon
  | none => fail .endInObject

/-- Takes the end of an object. -/
def objectEnd : Reader Unit := do
  match ← peekToken with
  | some '\x7d' => skip
  | some ',' => failAfterNext .trailingComma
  | some _ => failAfterNext .trailingCharacters
  | none => fail .endInObject

/-- Stops at a field whose name occurred before. An object that ends right after the
name is still closed. -/
def repeated (name : String) : Reader α := do
  match ← peekToken with
  | some '\x7d' => skip
  | _ => pure ()
  fail (.repeatedField name)

def textEnd : Reader Unit := do
  match ← peekToken with
  | some _ => failAfterNext .trailingCharacters
  | none => return ()

end Reader

end FSharpWorkspace.Json
