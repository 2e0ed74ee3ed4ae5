import FSharpWorkspace.Ignore.Glob
import FSharpWorkspace.Text.Lines
/-!
# Ignore rules

A line of an ignore file is a rule about paths relative to the directory of the file. A rule whose
pattern has no slash inside holds at any depth, one that ends in a slash holds for directories
only, and one that starts with `!` keeps what an earlier rule ignores: the last rule that applies
decides (`verdict?`).
-/

set_option autoImplicit false

namespace FSharpWorkspace

structure IgnoreRule where
  glob : Glob
  /-- Whether paths are kept, not ignored. -/
  keeps : Bool
  onlyDirectories : Bool
deriving Repr

/-- What the rules say of a path. -/
inductive Verdict where
  | ignored
  | kept
deriving DecidableEq, Repr

namespace IgnoreRule

/-! ## Reading -/

def endsInEscapedSpace (line : List Char) : Bool := [' ', '\\'].isPrefixOf line.reverse

/-- A line without the blanks at its end; an escaped space at the end protects them. -/
def trimLine (line : List Char) : List Char :=
  if endsInEscapedSpace line then line else Text.trimEnd line

/-- A pattern without the slash at its end, which may be escaped, and whether there was one. -/
def dropFinalSlash (pattern : List Char) : List Char × Bool :=
  match pattern.reverse with
  | '/' :: '\\' :: rest => (rest.reverse, true)
  | '/' :: rest => (rest.reverse, true)
  | _ => (pattern, false)

def startsAnywhere (pattern : List Char) : Bool :=
  "**/".toList.isPrefixOf pattern || pattern = "**".toList

/-- The pattern for whole relative paths. -/
def wholePattern (anchored : Bool) (pattern : List Char) : List Char :=
  let pattern :=
    if anchored || pattern.contains '/' || startsAnywhere pattern then pattern
    else "**/".toList ++ pattern
  if "/**".toList.isSuffixOf pattern then pattern ++ "/*".toList else pattern

/-- The rule on a line, if there is one. -/
def ofLine? (line : List Char) : Option IgnoreRule := do
  if line.head? = some '#' then none
  let line := trimLine line
  if line.isEmpty then none
  let (keeps, anchored, pattern) := match line with
    | '\\' :: '!' :: _ => (false, false, line.tail)
    | '\\' :: '#' :: _ => (false, false, line.tail)
    | '!' :: '/' :: rest => (true, true, rest)
    | '!' :: rest => (true, false, rest)
    | '/' :: rest => (false, true, rest)
    | _ => (false, false, line)
  let (pattern, onlyDirectories) := dropFinalSlash pattern
  let glob ← Glob.ofText? (wholePattern anchored pattern)
  some { glob, keeps, onlyDirectories }

/-- The lines of a file that come before the first one that is no text. -/
def linesOfBytes (bytes : List UInt8) : List (List Char) :=
  let readable := (Text.splitOn 0x0A bytes).map fun piece => (Utf8.decode? piece).map String.toList
  let pieces := (readable.takeWhile Option.isSome).filterMap id
  if readable.all Option.isSome then Text.linesOf pieces else pieces.map Text.dropReturn

/-- Lines without the marks of the byte order at the start of the first one. -/
def dropByteOrderMarks : List (List Char) → List (List Char)
  | first :: rest => first.dropWhile (· = Char.ofNat 0xFEFF) :: rest
  | [] => []

/-- The rules of a file. One that nests too deep makes all of them useless. -/
def ofBytes (bytes : List UInt8) : List IgnoreRule :=
  let rules := (dropByteOrderMarks (linesOfBytes bytes)).filterMap ofLine?
  if rules.any (·.glob.isTooDeep) then [] else rules

/-! ## Deciding -/

def applies (path : List UInt8) (isDirectory : Bool) (r : IgnoreRule) : Bool :=
  (!r.onlyDirectories || isDirectory) && r.glob.accepts path

def verdict (r : IgnoreRule) : Verdict := if r.keeps then .kept else .ignored

def verdict? (rules : List IgnoreRule) (path : List UInt8) (isDirectory : Bool) : Option Verdict :=
  (rules.reverse.find? (applies path isDirectory)).map verdict

theorem verdict?_append (rules more : List IgnoreRule) (path : List UInt8) (isDirectory : Bool) :
    verdict? (rules ++ more) path isDirectory =
      (verdict? more path isDirectory).or (verdict? rules path isDirectory) := by
  simp only [verdict?, List.reverse_append, List.find?_append, Option.map_or]

end IgnoreRule

end FSharpWorkspace
