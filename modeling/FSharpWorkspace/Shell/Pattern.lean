/-!
# Substitutions in lines

A pattern is a sequence of items, each of which takes one character or, with a star, as many as
possible; it may be bound to the start or the end of a line. `Substitution.apply` replaces the first
match, or every match, in a line.
-/

set_option autoImplicit false

namespace FSharpWorkspace.Shell

/-- What one character of a match may be. -/
inductive CharTest where
  | exactly (c : Char)
  | anything
  | oneOf (negated : Bool) (ranges : List (Char × Char))
deriving DecidableEq, Repr

def CharTest.passes (c : Char) : CharTest → Bool
  | exactly d => c = d
  | anything => true
  | oneOf negated ranges => (ranges.any fun (low, high) => low ≤ c && c ≤ high) != negated

/-- A test, and whether it may pass any number of times. -/
structure PatternItem where
  test : CharTest
  starred : Bool
deriving DecidableEq, Repr

structure Pattern where
  atStart : Bool
  items : List PatternItem
  atEnd : Bool
deriving DecidableEq, Repr

namespace Pattern

/-- How many characters the longest match at the front of a text takes, where a star takes as many
as the rest allows. -/
def matchLength? (atEnd : Bool) : List PatternItem → List Char → Option Nat
  | [], text => if atEnd && !text.isEmpty then none else some 0
  | item :: rest, text =>
    let tryAt (n : Nat) : Option Nat := (matchLength? atEnd rest (text.drop n)).map (n + ·)
    if item.starred then
      let most := (text.takeWhile fun c => item.test.passes c).length
      (List.range (most + 1)).reverse.findSome? tryAt
    else
      match text with
      | c :: _ => if item.test.passes c then tryAt 1 else none
      | [] => none

/-- Reads the ranges of a class up to its closing bracket. -/
def readRanges : List Char → Option (List (Char × Char) × List Char)
  | [] => none
  | ']' :: rest => some ([], rest)
  | c :: '-' :: ']' :: rest => some ([(c, c), ('-', '-')], rest)
  | c :: '-' :: d :: rest => (readRanges rest).map fun (ranges, t) => ((c, d) :: ranges, t)
  | c :: rest => (readRanges rest).map fun (ranges, t) => ((c, c) :: ranges, t)

/-- Reads a class after its opening bracket; a closing bracket at its start belongs to it. -/
def readClass (text : List Char) : Option (CharTest × List Char) :=
  let (negated, text) := match text with
    | '^' :: rest => (true, rest)
    | rest => (false, rest)
  let (own, text) := match text with
    | ']' :: rest => ([(']', ']')], rest)
    | rest => ([], rest)
  (readRanges text).map fun (ranges, rest) => (.oneOf negated (own ++ ranges), rest)

/-- Reads items. Every round takes a character. -/
def readItems : Nat → List Char → Option (List PatternItem × Bool)
  | _, [] => some ([], false)
  | _, ['$'] => some ([], true)
  | 0, _ => none
  | rounds + 1, c :: rest => do
    let (test, rest) ← match c, rest with
      | '\\', d :: rest => some (CharTest.exactly d, rest)
      | '.', rest => some (.anything, rest)
      | '[', rest => readClass rest
      | c, rest => some (.exactly c, rest)
    match rest with
    | '*' :: rest => (readItems rounds rest).map fun (items, e) => (⟨test, true⟩ :: items, e)
    | _ => (readItems rounds rest).map fun (items, e) => (⟨test, false⟩ :: items, e)

/-- The items of a pattern for names: a star stands for any characters, a question mark for one. A
marked character stands for itself. Every round takes a character. -/
def itemsOfShape : Nat → List (Char × Bool) → List PatternItem
  | 0, _ => []
  | _, [] => []
  | rounds + 1, (c, marked) :: rest =>
    if !marked && c = '*' then ⟨.anything, true⟩ :: itemsOfShape rounds rest
    else if !marked && c = '?' then ⟨.anything, false⟩ :: itemsOfShape rounds rest
    else if !marked && c = '[' then
      let text := rest.map (·.1)
      match readClass (if text.head? = some '!' then '^' :: text.tail else text) with
      | some (test, after) =>
        ⟨test, false⟩ :: itemsOfShape rounds (rest.drop (rest.length - after.length))
      | none => ⟨.exactly c, false⟩ :: itemsOfShape rounds rest
    else ⟨.exactly c, false⟩ :: itemsOfShape rounds rest

def hasShape (shape : List (Char × Bool)) (text : List Char) : Bool :=
  (matchLength? true (itemsOfShape shape.length shape) text).isSome

def ofText? (text : List Char) : Option Pattern :=
  match text with
  | '^' :: rest => (readItems rest.length rest).map fun (items, e) => ⟨true, items, e⟩
  | _ => (readItems text.length text).map fun (items, e) => ⟨false, items, e⟩

end Pattern

structure Substitution where
  pattern : Pattern
  replacement : List Char
  everywhere : Bool
deriving DecidableEq, Repr

namespace Substitution

/-- The replacement for a match: `&` stands for the match, and a backslash takes the next
character literally. -/
def expand (found : List Char) : List Char → List Char
  | [] => []
  | '&' :: rest => found ++ expand found rest
  | '\\' :: 'n' :: rest => '\n' :: expand found rest
  | '\\' :: c :: rest => c :: expand found rest
  | c :: rest => c :: expand found rest

/-- A line after the replacement. Every round takes a character. -/
def applyFrom (s : Substitution) : Nat → Bool → List Char → List Char
  | 0, _, text => text
  | rounds + 1, isStart, text =>
    let found? :=
      if s.pattern.atStart && !isStart then none
      else Pattern.matchLength? s.pattern.atEnd s.pattern.items text
    match found?, text with
    | some n, _ =>
      let replaced := expand (text.take n) s.replacement
      if !s.everywhere then replaced ++ text.drop n
      else if n > 0 then
        if (text.drop n).isEmpty then replaced
        else replaced ++ applyFrom s rounds false (text.drop n)
      else
        match text with
        | [] => replaced
        | c :: rest => replaced ++ c :: applyFrom s rounds false rest
    | none, [] => []
    | none, c :: rest => c :: applyFrom s rounds false rest

def apply (s : Substitution) (line : List Char) : List Char :=
  applyFrom s (line.length + 1) true line

/-- A part of a text up to a delimiter that no backslash protects, and what
follows the delimiter. -/
def upTo (delimiter : Char) : List Char → Option (List Char × List Char)
  | [] => none
  | '\\' :: c :: rest =>
    (upTo delimiter rest).map fun (part, t) =>
      (if c = delimiter then c :: part else '\\' :: c :: part, t)
  | c :: rest =>
    if c = delimiter then some ([], rest)
    else (upTo delimiter rest).map fun (part, t) => (c :: part, t)

def ofText? : List Char → Option Substitution
  | 's' :: delimiter :: rest => do
    let (pattern, rest) ← upTo delimiter rest
    let (replacement, flags) ← upTo delimiter rest
    let pattern ← Pattern.ofText? pattern
    if flags = [] then some ⟨pattern, replacement, false⟩
    else if flags = ['g'] then some ⟨pattern, replacement, true⟩
    else none
  | _ => none

end Substitution

end FSharpWorkspace.Shell
