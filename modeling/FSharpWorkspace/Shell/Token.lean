import FSharpWorkspace.Text.Lines
/-!
# Tokens of shell scripts

`Token.ofText` cuts the text of a script into words and operators. A word keeps its parts apart,
since what a variable or a command stands for is cut into further words unless it is quoted. What
stands inside a substitution is kept as a text and read when the word is expanded. A text that
cannot be cut yields the complaint of the shell.
-/

set_option autoImplicit false

namespace FSharpWorkspace.Shell

inductive Part where
  | literal (text : String) (quoted : Bool)
  /-- A parameter: its name, and how its value is changed. -/
  | parameter (text : String) (quoted : Bool)
  /-- The output of a script. -/
  | output (script : String) (quoted : Bool)
  /-- The value of an expression. -/
  | number (expression : String) (quoted : Bool)
deriving DecidableEq, Repr

abbrev Word := List Part

inductive Token where
  /-- A word, with the number of its line. -/
  | word (w : Word) (line : Nat)
  /-- An operator, with the number of the stream that stands right before it. -/
  | operator (text : String) (stream : Option Nat)
deriving DecidableEq, Repr

namespace Token

/-! ## Characters -/

def startsName (c : Char) : Bool := c.isAlpha || c = '_'

def isNameChar (c : Char) : Bool := c.isAlphanum || c = '_'

def markNames : List Char := ['#', '@', '*', '$', '?', '!', '-']

/-- Whether an unquoted character ends a word. -/
def endsWord (c : Char) : Bool := [' ', '\t', '\n', ';', '&', '|', '<', '>', '(', ')'].contains c

/-- The characters that a backslash protects between double quotes. -/
def protectable : List Char := ['"', '\\', '$', '\x60']

/-! ## Complaints -/

def openQuote : String := "Unterminated quoted string"

def openParenthesis : String := "end of file unexpected (expecting \")\")"

def openNumber : String := "Missing '))'"

def openBrace : String := "Missing '\x7d'"

def openBackquote : String := "EOF in backquote substitution"

/-! ## Substitutions -/

/-- What a character opens after the character `before`, the innermost of what is open being closed
by `mark`: the mark that closes it. -/
def opened (before mark c : Char) : List Char :=
  if before = '$' && c = '(' then [')']
  else if before = '$' && c = '\x7b' then ['\x7d']
  else if mark = '"' then []
  else if c = '"' || c = '\'' then [c]
  else if c = '(' && mark = ')' then [')']
  else []

/-- A text up to the mark that closes it. `marks` close what is open, innermost first; `before` is
the character before the text, or a blank if that has no meaning for what follows. -/
def upToMark (before : Char) (marks : List Char) : List Char → Option (List Char × List Char)
  | [] => none
  | c :: rest =>
    let mark := marks.headD c
    let keep (found : List Char × List Char) := (c :: found.1, found.2)
    if before = '\\' then (upToMark ' ' marks rest).map keep
    else if c = mark then
      if marks.length ≤ 1 then some ([], rest) else (upToMark ' ' marks.tail rest).map keep
    else if mark = '\'' then (upToMark ' ' marks rest).map keep
    else (upToMark c (opened before mark c ++ marks) rest).map keep

/-- A script up to the backquote that closes it; a backslash protects some characters. -/
def upToBackquote : List Char → Option (List Char × List Char)
  | [] => none
  | '\x60' :: rest => some ([], rest)
  | '\\' :: c :: rest =>
    (upToBackquote rest).map fun (part, t) =>
      (if ['\\', '$', '\x60'].contains c then (c :: part, t) else ('\\' :: c :: part, t))
  | c :: rest => (upToBackquote rest).map fun (part, t) => (c :: part, t)

/-- The words of a text that stand where a command may start. -/
def leadingWords (text : List Char) : List String :=
  let marked := text.flatMap fun c => if [';', '&', '|', '(', ')', '\n'].contains c then
    [' ', ';', ' '] else [c]
  let words := ((Text.splitOn ' ' marked).map String.ofList).filter (· ≠ "")
  let starters := [";", "do", "then", "else", "elif", "if", "while", "until", "!", "\x7b", "in"]
  ((";" :: words).zip words).filterMap fun (before, found) => if starters.contains before then
    some found else none

/-- Whether a script is cut off inside a choice between patterns, whose patterns
end in parentheses. -/
def cutsChoice (script : List Char) : Bool :=
  let words := leadingWords script
  words.count "esac" < words.count "case"

/-- The script of a substitution, up to the parenthesis that closes it. Every round
takes a parenthesis. -/
def upToParenthesis : Nat → List Char → List Char → Option (List Char × List Char)
  | 0, _, _ => none
  | rounds + 1, done, text => do
    let (more, rest) ← upToMark ' ' [')'] text
    let script := done ++ more
    if cutsChoice script then upToParenthesis rounds (script ++ [')']) rest else some (script, rest)

/-- Reads a part that starts with a dollar sign, after that sign. -/
def readDollar (quoted : Bool) (text : List Char) : Except String (Part × List Char) :=
  match text with
  | '(' :: rest =>
    match upToParenthesis (rest.length + 1) [] rest with
    | none => .error (if rest.head? = some '(' then openNumber else openParenthesis)
    | some (script, after) =>
      match rest, after with
      | '(' :: inner, after =>
        match upToMark ' ' [')'] inner with
        | some (expression, ')' :: after') =>
          .ok (.number (String.ofList expression) quoted, after')
        | _ => .ok (.output (String.ofList script) quoted, after)
      | _, after => .ok (.output (String.ofList script) quoted, after)
  | '\x7b' :: rest =>
    match upToMark ' ' ['\x7d'] rest with
    | some (text, after) => .ok (.parameter (String.ofList text) quoted, after)
    | none => .error openBrace
  | c :: rest =>
    if startsName c then
      let name := text.takeWhile isNameChar
      .ok (.parameter (String.ofList name) quoted, text.drop name.length)
    else if c.isDigit || markNames.contains c then .ok (.parameter c.toString quoted, rest)
    else .ok (.literal "$" quoted, text)
  | [] => .ok (.literal "$" quoted, [])

/-! ## Words -/

/-- Where quoted text stands, and so what a double quote in it is. -/
inductive Surrounding where
  /-- Between double quotes: their end. -/
  | quotes
  /-- In a text within a script: itself. -/
  | document
  /-- Between the braces of a parameter that is quoted: nothing. -/
  | braces
deriving DecidableEq, Repr

/-- Reads what stands between double quotes, after the first one, or other quoted text up to its
end. Every round takes a character. -/
def readQuoted (where_ : Surrounding) : Nat → List Char → Except String (Word × List Char)
  | 0, _ => .error openQuote
  | _, [] => if where_ = .quotes then .error openQuote else .ok ([], [])
  | rounds + 1, '\\' :: c :: rest => do
    let (parts, t) ← readQuoted where_ rounds rest
    if c = '\n' then return (parts, t)
    else if protectable.contains c && (c ≠ '"' || where_ ≠ .document) then
      return (.literal c.toString true :: parts, t)
    else return (.literal (String.ofList ['\\', c]) true :: parts, t)
  | rounds + 1, '$' :: rest => do
    let (part, t) ← readDollar true rest
    let (parts, t) ← readQuoted where_ rounds t
    return (part :: parts, t)
  | rounds + 1, '\x60' :: rest => do
    match upToBackquote rest with
    | none => .error openBackquote
    | some (script, t) =>
      let (parts, t) ← readQuoted where_ rounds t
      return (.output (String.ofList script) true :: parts, t)
  | rounds + 1, c :: rest => do
    if c = '"' && where_ = .quotes then return ([], rest)
    let (parts, t) ← readQuoted where_ rounds rest
    if c = '"' && where_ = .braces then return (parts, t)
    return (.literal c.toString true :: parts, t)

/-- Reads a word up to an unquoted character at which it `ends`. Every round takes a character. -/
def readWord (ends : Char → Bool) : Nat → List Char → Except String (Word × List Char)
  | 0, text => .ok ([], text)
  | _, [] => .ok ([], [])
  | rounds + 1, '"' :: rest => do
    let (quoted, t) ← readQuoted .quotes (rest.length + 1) rest
    let (parts, t) ← readWord ends rounds t
    -- all arguments between quotes are no field at all if there are none
    return ((if quoted = [.parameter "@" true] then quoted else .literal "" true :: quoted) ++
      parts, t)
  | rounds + 1, '\'' :: rest => do
    let quoted := rest.takeWhile (· ≠ '\'')
    if quoted.length = rest.length then .error openQuote
    let (parts, t) ← readWord ends rounds (rest.drop (quoted.length + 1))
    return (.literal (String.ofList quoted) true :: parts, t)
  | rounds + 1, '\\' :: c :: rest => do
    let (parts, t) ← readWord ends rounds rest
    return (if c = '\n' then parts else .literal c.toString true :: parts, t)
  | rounds + 1, '$' :: rest => do
    let (part, t) ← readDollar false rest
    let (parts, t) ← readWord ends rounds t
    return (part :: parts, t)
  | rounds + 1, '\x60' :: rest => do
    match upToBackquote rest with
    | none => .error openBackquote
    | some (script, t) =>
      let (parts, t) ← readWord ends rounds t
      return (.output (String.ofList script) false :: parts, t)
  | rounds + 1, c :: rest => do
    if ends c then return ([], c :: rest)
    let (parts, t) ← readWord ends rounds rest
    return (.literal c.toString false :: parts, t)

/-- The quoted word that a whole text is. -/
def quotedWordOf (where_ : Surrounding) (text : String) : Except String Word := do
  return (← readQuoted where_ (text.length + 1) text.toList).1

/-- The word that a whole text is; `quoted` says that it stands between the braces of
a quoted parameter. -/
def wordOf (quoted : Bool) (text : String) : Except String Word := do
  if quoted then quotedWordOf .braces text
  else return (← readWord (fun _ => false) (text.length + 1) text.toList).1

/-! ## Texts within scripts -/

/-- A text within a script that is still to come: the line that ends it, whether it is taken as it
stands, and whether tabs are taken off its lines. -/
structure Pending where
  closing : String
  verbatim : Bool
  stripped : Bool

def literalText (w : Word) : String :=
  String.join (w.map fun
    | .literal t _ => t
    | .parameter t _ => "$" ++ t
    | .output t _ => t
    | .number t _ => t)

/-- Whether a part of a word is quoted. -/
def hasQuotes (w : Word) : Bool :=
  w.any fun
    | .literal _ quoted => quoted
    | _ => false

/-- Takes the lines of a text within a script. Every round takes a line. -/
def takeLines (p : Pending) : Nat → List Char → List (List Char) × List Char
  | 0, text => ([], text)
  | _, [] => ([], [])
  | rounds + 1, text =>
    let line := text.takeWhile (· ≠ '\n')
    let rest := text.drop (line.length + 1)
    let line := if p.stripped then line.dropWhile (· = '\t') else line
    if line = p.closing.toList then ([], rest)
    else
      let (lines, rest) := takeLines p rounds rest
      (line :: lines, rest)

/-- Takes the texts within a script that start on a new line. -/
def takeTexts : List Pending → List Char → Except String (List Word × List Char)
  | [], text => .ok ([], text)
  | p :: rest, text => do
    let (lines, text) := takeLines p (text.length + 1) text
    let body := String.ofList (lines.flatMap (· ++ ['\n']))
    let w ← if p.verbatim then .ok [Part.literal body true] else quotedWordOf .document body
    let (ws, text) ← takeTexts rest text
    return (w :: ws, text)

/-! ## Tokens -/

/-- Operators, longer ones before those that they start with. -/
def operators : List String :=
  ["&&", "||", ";;", ">>", ">&", "<&", "<<-", "<<", "<>", ">|", "&", "|", ";", "<", ">", "(", ")"]

def operator? (text : List Char) : Option String :=
  operators.find? fun o => o.toList.isPrefixOf text

def lineEnds (text : List Char) : Nat := text.count '\n'

/-- Cuts a text into tokens, and returns the texts within it. Every round takes a character. -/
def readAll : Nat → Nat → List Pending → List Char → Except String (List Token × List Word)
  | 0, _, _, _ => .ok ([], [])
  | _, _, _, [] => .ok ([], [])
  | rounds + 1, line, pending, c :: rest => do
    if c = ' ' || c = '\t' then readAll rounds line pending rest
    else if c = '\n' then
      let (texts, after) ← takeTexts pending rest
      let line := line + 1 + lineEnds (rest.take (rest.length - after.length))
      let (ts, more) ← readAll rounds line [] after
      return (.operator "newline" none :: ts, texts ++ more)
    else if c = '#' then readAll rounds line pending (rest.dropWhile (· ≠ '\n'))
    else
      let digits := (c :: rest).takeWhile Char.isDigit
      let after := (c :: rest).drop digits.length
      let numbered := !digits.isEmpty && (after.head? = some '>' || after.head? = some '<')
      let stream := if numbered then (String.ofList digits).toNat? else none
      match operator? (if numbered then after else c :: rest) with
      | some o =>
        let after := (if numbered then after else c :: rest).drop o.length
        if o = "<<" || o = "<<-" then
          let (w, t) ← readWord endsWord (after.length + 2)
            (after.dropWhile fun c => c = ' ' || c = '\t')
          let mark : Pending := ⟨literalText w, hasQuotes w, o = "<<-"⟩
          let (ts, texts) ← readAll rounds line (pending ++ [mark]) t
          return (.operator "<<" stream :: .word [] line :: ts, texts)
        else
          let (ts, texts) ← readAll rounds line pending after
          return (.operator o stream :: ts, texts)
      | none =>
        let (w, t) ← readWord endsWord (rest.length + 2) (c :: rest)
        let line' := line + lineEnds (rest.take (rest.length - t.length))
        let (ts, texts) ← readAll rounds line' pending t
        return (.word w line :: ts, texts)

/-- Puts the texts within a script into the places where they were announced. -/
def fill : List Token → List Word → List Token
  | .operator "<<" stream :: .word _ line :: rest, texts =>
    .operator "<<" stream :: .word (texts.headD []) line :: fill rest texts.tail
  | t :: rest, texts => t :: fill rest texts
  | [], _ => []

def ofText (text : String) : Except String (List Token) := do
  let (ts, texts) ← readAll (text.length + 1) 1 [] text.toList
  return fill ts texts

end Token

end FSharpWorkspace.Shell
