import FSharpWorkspace.Shell.Arithmetic
import FSharpWorkspace.Shell.Pattern
import FSharpWorkspace.Shell.State
/-!
# Expanding words

A word yields any number of fields: parameters and the output of scripts are put in place of what
names them, and cut at blanks unless they are quoted; a field with an unquoted star, question mark
or bracket becomes the names on the disk that have its shape. Characters carry a mark that says
whether they were quoted.
-/

set_option autoImplicit false

namespace FSharpWorkspace.Shell

abbrev Runner := Script → ShellM Unit

namespace State

/-! ## Parameters -/

/-- The value of a parameter or variable, if it is set. -/
def parameter? (sh : State) (name : String) : Option String :=
  match name with
  | "#" => some (toString sh.args.length)
  | "?" => some (toString sh.status)
  | "$" => some ownNumber
  | "!" => some ""
  | "-" => some ""
  | "0" => some sh.name
  | "@" => if sh.args.isEmpty then none else some (" ".intercalate sh.args)
  | "*" => if sh.args.isEmpty then none else some (" ".intercalate sh.args)
  | "PWD" => some sh.place.directory.text
  | "LINENO" => some (toString sh.line)
  | _ =>
    match name.toNat? with
    | some n => if n = 0 then some sh.name else sh.args[n - 1]?
    | none => sh.bindings.lookup name

def assign (name value : String) : ShellM Unit := modify fun sh =>
  { sh with bindings := (name, value) :: sh.bindings.filter (·.1 ≠ name) }

/-- How the value of a parameter is changed. -/
inductive Form where
  | plain
  | length
  /-- A word for a parameter without a value: in its place, also assigned to it, for a complaint,
  or, the other way round, in place of a value. -/
  | fallback (mark : Char) (evenIfEmpty : Bool) (word : String)
  /-- Without the part at its start or end that has a shape. -/
  | trimmed (atStart longest : Bool) (shape : String)
deriving DecidableEq, Repr

/-- Reads a parameter: its name and its form. -/
def formOf? (text : String) : Option (String × Form) :=
  let nameOf (cs : List Char) : Option (List Char) :=
    match cs with
    | [] => none
    | c :: rest =>
      if Token.startsName c then some (cs.takeWhile Token.isNameChar)
      else if c.isDigit then some (c :: rest.takeWhile Char.isDigit)
      else if Token.markNames.contains c then some [c]
      else none
  let text := text.toList
  match text with
  | '#' :: c :: rest =>
    if nameOf (c :: rest) = some (c :: rest) then some (String.ofList (c :: rest), .length)
    else none
  | _ => do
    let name ← nameOf text
    let form ← match text.drop name.length with
      | [] => some .plain
      | ':' :: c :: word =>
        if ['-', '=', '?', '+'].contains c then some (.fallback c true (String.ofList word))
        else none
      | '#' :: '#' :: word => some (.trimmed true true (String.ofList word))
      | '#' :: word => some (.trimmed true false (String.ofList word))
      | '%' :: '%' :: word => some (.trimmed false true (String.ofList word))
      | '%' :: word => some (.trimmed false false (String.ofList word))
      | c :: word =>
        if ['-', '=', '?', '+'].contains c then some (.fallback c false (String.ofList word))
        else none
    return (String.ofList name, form)

/-- A text without the part at its start or end that has a shape. -/
def trim (atStart longest : Bool) (shape : List (Char × Bool)) (text : List Char) : List Char :=
  let sizes := List.range (text.length + 1)
  let sizes := if longest then sizes.reverse else sizes
  let part (n : Nat) := if atStart then text.take n else text.drop (text.length - n)
  match sizes.find? fun n => Pattern.hasShape shape (part n) with
  | some n => if atStart then text.drop n else text.take (text.length - n)
  | none => text

/-! ## Fields -/

/-- A text with a mark on each character that says whether it was quoted. -/
abbrev Marked := List (Char × Bool)

def marked (quoted : Bool) (text : String) : Marked := text.toList.map fun c => (c, quoted)

/-- Fields that words have yielded so far, and the one that is being built. -/
structure Fields where
  done : List Marked
  current : Option Marked

namespace Fields

def empty : Fields := ⟨[], none⟩

def push (f : Fields) (text : Marked) : Fields :=
  { f with current := some (f.current.getD [] ++ text) }

def cut (f : Fields) : Fields := ⟨f.done ++ f.current.toList, none⟩

/-- Adds text that is cut at the characters `separators`. -/
def pushSplit (f : Fields) (separators : List Char) (text : String) : Fields :=
  text.toList.foldl
    (fun f c =>
      if !separators.contains c then f.push [(c, false)]
      else if c = ' ' || c = '\t' || c = '\n' then f.cut
      else (f.push []).cut)
    f

/-- Adds a value, cut unless it is quoted. -/
def pushValue (f : Fields) (separators : List Char) (quoted : Bool) (text : String) : Fields :=
  if quoted then f.push (marked true text) else f.pushSplit separators text

/-- Adds several texts, each as a field of its own. -/
def pushEach (f : Fields) (add : Fields → String → Fields) : List String → Fields
  | [] => f
  | [text] => add f text
  | text :: rest => pushEach (add f text).cut add rest

end Fields

def separators (sh : State) : List Char := ((sh.bindings.lookup "IFS").getD " \t\n").toList

/-! ## Parts -/

/-- The output of a script without the ends of lines at its end. -/
def outputText (bytes : List UInt8) : String :=
  Utf8.decodeLossy ((bytes.filter (· ≠ 0)).reverse.dropWhile (· = 10)).reverse

/-- Gives up if a script cannot be read. -/
def parsed (read : Except String Script) (origin : String)
    (action : Script → ShellM Unit) : ShellM Unit :=
  match read with
  | .ok script => action script
  | .error message => giveUp (origin ++ "Syntax error: " ++ message)

/-- The word that a text inside a substitution is. -/
def innerWord (quoted : Bool) (text : String) : ShellM Word := do
  match Token.wordOf quoted text with
  | .ok w => return w
  | .error message =>
    giveUp ("Syntax error: " ++ message)
    return []

/-- Adds the values of the parts of a word to the fields. `whole` says that nothing is cut. Every
round goes one word deeper. -/
def expandParts (run : Runner) (whole : Bool) : Nat → Word → Fields → ShellM Fields
  | 0, _, f => return f
  | rounds + 1, w, f => w.foldlM (fun f part => expandPart rounds part f) f
where
  /-- Adds the value of a part. -/
  expandPart (rounds : Nat) (part : Part) (f : Fields) : ShellM Fields := do
    let sh ← get
    let add (quoted : Bool) (f : Fields) (text : String) : Fields :=
      if whole then f.push (marked quoted text) else f.pushValue sh.separators quoted text
    match part with
    | .literal text quoted => return f.push (marked quoted text)
    | .output text quoted =>
      let bytes ← captured (parsed (Script.ofText text) "" run)
      return add quoted f (outputText bytes)
    | .number text quoted =>
      let inner ← expandParts run true rounds (← innerWord true text) Fields.empty
      let expression := String.ofList (inner.cut.done.flatten.map (·.1))
      match Arithmetic.evaluate sh.bindings expression with
      | .ok (n, bindings) =>
        modify fun sh => { sh with bindings }
        return add quoted f (toString n)
      | .error message =>
        giveUp message
        return f
    | .parameter text quoted =>
      match formOf? text with
      | none =>
        giveUp "Bad substitution"
        return f
      | some (name, form) =>
        let value := sh.parameter? name
        let text := value.getD ""
        let unset := value.isNone && sh.careful && name ≠ "@" && name ≠ "*"
        match form with
        | .plain =>
          if unset then
            giveUp (name ++ ": parameter not set")
            return f
          else if name = "@" && !whole then return f.pushEach (add quoted) sh.args
          else if name = "*" && !quoted && !whole then return f.pushEach (add false) sh.args
          else return add quoted f text
        | .length => return add quoted f (toString text.utf8ByteSize)
        | .trimmed atStart longest shape =>
          let inner ← expandParts run true rounds (← innerWord false shape) Fields.empty
          return add quoted f
            (String.ofList (trim atStart longest inner.cut.done.flatten text.toList))
        | .fallback mark evenIfEmpty word =>
          let present := value.isSome && (!evenIfEmpty || !text.isEmpty)
          if mark = '+' then
            if present then return (← expandParts run whole rounds (← innerWord quoted word) f)
            else return f
          else if present then return add quoted f text
          else if mark = '-' then
            return (← expandParts run whole rounds (← innerWord quoted word) f)
          else
            let inner ← expandParts run true rounds (← innerWord quoted word) Fields.empty
            let other := String.ofList (inner.cut.done.flatten.map (·.1))
            if mark = '=' then
              assign name other
              return add quoted f other
            else
              let plain := if evenIfEmpty then "parameter not set or null" else "parameter not set"
              giveUp (name ++ ": " ++ if other.isEmpty then plain else other)
              return f

/-! ## Names on the disk -/

/-- Whether a shape has an unquoted mark that stands for other characters. -/
def isOpen (shape : Marked) : Bool :=
  shape.any fun (c, quoted) => !quoted && ['*', '?', '['].contains c

def plainText (shape : Marked) : String := String.ofList (shape.map (·.1))

/-- The spellings that go on from `start` by a piece of a shape. A name with a dot in front
must be asked for. -/
def continueWith (at_ : Place) (start : String) (piece : Marked) : List String :=
  if !isOpen piece then [start ++ plainText piece]
  else
    match at_.disk.resolve at_.directory ⟨if start.isEmpty then "." else start⟩ with
    | .error _ => []
    | .ok l =>
      let names := (at_.disk.namesIn l).filter fun name =>
        Pattern.hasShape piece name.toList &&
          (name.toList.head? ≠ some '.' || (piece.head?.map (·.1)) = some '.')
      names.map (start ++ ·)

/-- The spellings on the disk that have a shape. -/
def spellingsOf (at_ : Place) : List Marked → List String → List String
  | [], starts => starts
  | [piece], starts => (starts.flatMap fun start => continueWith at_ start piece).filter at_.reaches
  | piece :: rest, starts =>
    spellingsOf at_ rest ((starts.flatMap fun start => continueWith at_ start piece).map (· ++ "/"))

/-- The pieces of a shape between slashes. -/
def piecesOf (shape : Marked) : List Marked :=
  shape.foldr
    (fun c pieces =>
      match pieces with
      | [] => [[c]]
      | piece :: rest => if c.1 = '/' then [] :: piece :: rest else (c :: piece) :: rest)
    [[]]

/-- The texts that a field stands for. -/
def fieldTexts (at_ : Place) (field : Marked) : List String :=
  if !isOpen field then [plainText field]
  else
    match spellingsOf at_ (piecesOf field) [""] with
    | [] => [plainText field]
    | found => found

/-! ## Words -/

def wordDepth : Nat := 200

/-- The fields that words yield. -/
def expandWords (run : Runner) (words : List Word) : ShellM (List String) := do
  let f ← words.foldlM
    (fun f w => do return (← expandParts run false wordDepth w f).cut) Fields.empty
  let sh ← get
  return if sh.literal then f.done.map plainText else f.done.flatMap (fieldTexts sh.place)

/-- What a word yields where it is not cut, with marks. -/
def expandShape (run : Runner) (w : Word) : ShellM Marked := do
  return (← expandParts run true wordDepth w Fields.empty).cut.done.flatten

def expandWhole (run : Runner) (w : Word) : ShellM String :=
  do return plainText (← expandShape run w)

end State

end FSharpWorkspace.Shell
