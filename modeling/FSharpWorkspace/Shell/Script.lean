import FSharpWorkspace.Shell.Token
/-!
# Shell scripts

`Script.ofTokens` groups the tokens of a script into steps: pipes of commands, each with a link that
says when it runs. Commands are simple, or they hold scripts of their own. Tokens that cannot be
grouped yield the complaint of the shell.
-/

set_option autoImplicit false

namespace FSharpWorkspace.Shell

/-- What a redirection does to a stream. -/
inductive RedirectKind where
  | read
  /-- Reads a text of the script itself. -/
  | text
  | write
  | append
  | copy
deriving DecidableEq, Repr

structure Redirect where
  stream : Nat
  kind : RedirectKind
  target : Word
deriving DecidableEq, Repr

/-- When a step of a script runs, by how the one before it ended. -/
inductive Link where
  | always
  | onSuccess
  | onFailure
deriving DecidableEq, Repr

/-- A command of a script. The steps of a script are pipes of commands; a step may be negated. -/
inductive Command where
  | simple (line : Nat) (words : List Word) (redirects : List Redirect)
  | group (isolated : Bool) (body : List (Link × Bool × List Command)) (redirects : List Redirect)
  | branch (condition yes no : List (Link × Bool × List Command)) (redirects : List Redirect)
  /-- Runs the body as long as the condition succeeds, or, if `until_`, as long as it fails. -/
  | loop (until_ : Bool) (condition body : List (Link × Bool × List Command))
      (redirects : List Redirect)
  /-- Runs the body for each of some words, or of the arguments if there are none. -/
  | each (name : String) (words : Option (List Word)) (body : List (Link × Bool × List Command))
      (redirects : List Redirect)
  /-- Runs the first script with a pattern for the subject. -/
  | choose (subject : Word) (arms : List (List Word × List (Link × Bool × List Command)))
      (redirects : List Redirect)
  | define (name : String) (body : Command)
deriving Repr, Inhabited

/-- A step of a script. -/
abbrev Step := Link × Bool × List Command

abbrev Script := List Step

namespace Script

/-! ## Looking at tokens -/

/-- The unquoted text of a word, if it is nothing else. -/
def plainText? (w : Word) : Option String :=
  (w.mapM fun | Part.literal t false => some t | _ => none).map String.join

/-- Words with a meaning of their own where a command starts. -/
def reserved : List String :=
  ["!", "case", "do", "done", "elif", "else", "esac", "fi", "for", "if", "in", "then",
    "until", "while", "\x7b", "\x7d"]

/-- How a complaint shows a token. -/
def shown : List Token → String
  | [] => "end of file"
  | .word w _ :: _ =>
    ((plainText? w).filter reserved.contains).elim "word" fun text => "\"" ++ text ++ "\""
  | .operator "newline" _ :: _ => "newline"
  | .operator "<<" _ :: _ => "redirection"
  | .operator o _ :: _ => "\"" ++ o ++ "\""

def unexpected (ts : List Token) : String := shown ts ++ " unexpected"

def expecting (text : String) (ts : List Token) : String :=
  unexpected ts ++ " (expecting \"" ++ text ++ "\")"

/-- Passes the ends of lines. -/
def skipLines : List Token → List Token
  | .operator "newline" _ :: rest => skipLines rest
  | ts => ts

/-- Whether a reserved word comes next. -/
def seesWord (text : String) : List Token → Bool
  | .word w _ :: _ => plainText? w = some text
  | _ => false

/-- Whether an operator comes next. -/
def seesOperator (text : String) : List Token → Bool
  | .operator o _ :: _ => o = text
  | _ => false

def expectWord (text : String) (ts : List Token) : Except String (List Token) :=
  if seesWord text ts then .ok ts.tail else .error (expecting text ts)

def expectOperator (text : String) (ts : List Token) : Except String (List Token) :=
  if seesOperator text ts then .ok ts.tail else .error (expecting text ts)

/-! ## Words and redirections -/

/-- The redirection that an operator stands for, with the stream that it
changes if none is named. -/
def redirectKind? : String → Option (RedirectKind × Nat)
  | "<" => some (.read, 0)
  | "<<" => some (.text, 0)
  | ">" => some (.write, 1)
  | ">|" => some (.write, 1)
  | ">>" => some (.append, 1)
  | ">&" => some (.copy, 1)
  | "<&" => some (.copy, 0)
  | _ => none

/-- Reads words and redirections. -/
def readWords (line : Nat) (words : List Word) (redirects : List Redirect) :
    List Token → Except String (Nat × List Word × List Redirect × List Token)
  | .word w l :: rest => readWords (if words.isEmpty then l else line) (words ++ [w]) redirects rest
  | .operator o stream :: .word w l :: rest =>
    match redirectKind? o with
    | some (kind, own) => readWords line words (redirects ++ [⟨stream.getD own, kind, w⟩]) rest
    | none => .ok (line, words, redirects, .operator o stream :: .word w l :: rest)
  | .operator o stream :: rest =>
    if (redirectKind? o).isSome then .error (unexpected rest)
    else .ok (line, words, redirects, .operator o stream :: rest)
  | [] => .ok (line, words, redirects, [])

/-- Reads the redirections of a command that holds scripts. -/
def readRedirects (ts : List Token) : Except String (List Redirect × List Token) := do
  match ts with
  | .operator _ _ :: _ =>
    let (_, words, redirects, rest) ← readWords 0 [] [] ts
    if words.isEmpty then return (redirects, rest) else .error (unexpected rest)
  | ts => return ([], ts)

/-- Reads the words that a loop goes through, up to the end of the line. -/
def readItems : List Token → List Word × List Token
  | .word w _ :: rest =>
    let (ws, ts) := readItems rest
    (w :: ws, ts)
  | ts => ([], ts)

/-- Reads the patterns of an arm. -/
def readPatterns : List Token → Except String (List Word × List Token)
  | .word w _ :: .operator "|" _ :: rest => do
    let (ws, ts) ← readPatterns rest
    return (w :: ws, ts)
  | .word w _ :: rest => do return ([w], ← expectOperator ")" rest)
  | ts => .error (unexpected ts)

/-! ## Words that end scripts -/

def closers : List String := ["\x7d", "then", "elif", "else", "fi", "do", "done", "esac"]

def isClosed (ts : List Token) : Bool :=
  ts.isEmpty || seesOperator ")" ts || seesOperator ";;" ts ||
    closers.any fun word => seesWord word ts

/-! ## Commands -/

/-- Reads the steps of a script up to something that ends it. -/
abbrev StepReader := List Token → Except String (Script × List Token)

/-- Reads a script with at least one step, unless the text ends first. -/
def readSome (steps : StepReader) (ts : List Token) : Except String (Script × List Token) :=
  let ts := skipLines ts
  if !ts.isEmpty && isClosed ts then .error (unexpected ts) else steps ts

/-- Reads the body of a loop. -/
def readBody (steps : StepReader) (ts : List Token) : Except String (Script × List Token) := do
  let (body, ts) ← readSome steps (← expectWord "do" (skipLines ts))
  return (body, ← expectWord "done" ts)

/-- Reads what follows the condition of a branch. Every round takes a condition. -/
def readBranch (steps : StepReader) :
    Nat → List Token → Except String (Script × Script × Script × List Token)
  | 0, ts => .error (unexpected ts)
  | rounds + 1, ts => do
    let (condition, ts) ← readSome steps ts
    let (yes, ts) ← readSome steps (← expectWord "then" ts)
    if seesWord "elif" ts then
      let (c, y, n, ts) ← readBranch steps rounds ts.tail
      return (condition, yes, [(.always, false, [.branch c y n []])], ts)
    else if seesWord "else" ts then
      let (no, ts) ← readSome steps ts.tail
      return (condition, yes, no, ← expectWord "fi" ts)
    else return (condition, yes, [], ← expectWord "fi" ts)

/-- Reads the arms of a choice. Every round takes an arm. -/
def readArms (steps : StepReader) :
    Nat → List Token → Except String (List (List Word × Script) × List Token)
  | 0, ts => .error (unexpected ts)
  | rounds + 1, ts => do
    let ts := skipLines ts
    if seesWord "esac" ts then return ([], ts.tail)
    let (patterns, ts) ← readPatterns (if seesOperator "(" ts then ts.tail else ts)
    let (body, ts) ← steps ts
    if seesOperator ";;" ts then
      let (arms, ts) ← readArms steps rounds ts.tail
      return ((patterns, body) :: arms, ts)
    else if seesWord "esac" ts then return ([(patterns, body)], ts.tail)
    else .error (expecting ";;" ts)

def isName (text : String) : Bool :=
  text.toList.head?.any Token.startsName && text.toList.all Token.isNameChar

def badVariable : String := "Bad for loop variable"

/-- Reads a loop over words, after the name of its variable. -/
def readEach (steps : StepReader) (name : String) (ts : List Token) :
    Except String (Command × List Token) := do
  let ts := skipLines ts
  let (words, ts) :=
    if seesWord "in" ts then
      let (ws, ts) := readItems ts.tail
      (some ws, if seesOperator ";" ts then ts.tail else ts)
    else (none, if seesOperator ";" ts then ts.tail else ts)
  let (body, ts) ← readBody steps ts
  let (redirects, ts) ← readRedirects ts
  return (.each name words body redirects, ts)

/-- Reads a command that holds scripts, if there is one. -/
def readCompound (steps : StepReader) (rounds : Nat) (ts : List Token) :
    Except String (Option (Command × List Token)) := do
  if seesWord "\x7b" ts then
    let (body, ts) ← readSome steps ts.tail
    let (redirects, ts) ← readRedirects (← expectWord "\x7d" ts)
    return some (.group false body redirects, ts)
  else if seesOperator "(" ts then
    let (body, ts) ← readSome steps ts.tail
    let (redirects, ts) ← readRedirects (← expectOperator ")" ts)
    return some (.group true body redirects, ts)
  else if seesWord "if" ts then
    let (condition, yes, no, ts) ← readBranch steps rounds ts.tail
    let (redirects, ts) ← readRedirects ts
    return some (.branch condition yes no redirects, ts)
  else if seesWord "while" ts || seesWord "until" ts then
    let (condition, rest) ← readSome steps ts.tail
    let (body, rest) ← readBody steps rest
    let (redirects, rest) ← readRedirects rest
    return some (.loop (seesWord "until" ts) condition body redirects, rest)
  else if seesWord "for" ts then
    match ts.tail with
    | .word w _ :: rest =>
      match plainText? w with
      | some name =>
        if isName name then return some (← readEach steps name rest) else .error badVariable
      | none => .error badVariable
    | _ => .error badVariable
  else if seesWord "case" ts then
    match ts.tail with
    | .word w _ :: rest =>
      let (arms, rest) ← readArms steps rounds (← expectWord "in" (skipLines rest))
      let (redirects, rest) ← readRedirects rest
      return some (.choose w arms redirects, rest)
    | rest => .error (unexpected rest)
  else return none

/-- Reads a command. -/
def readCommand (steps : StepReader) (rounds : Nat) (ts : List Token) :
    Except String (Command × List Token) := do
  match ← readCompound steps rounds ts with
  | some found => return found
  | none =>
    match ts with
    | .word w _ :: .operator "(" _ :: rest =>
      match ← readCompound steps rounds (skipLines (← expectOperator ")" rest)) with
      | some (body, rest) => return (.define ((plainText? w).getD "") body, rest)
      | none => .error (unexpected (skipLines rest.tail))
    | _ =>
      let (line, words, redirects, rest) ← readWords 1 [] [] ts
      if words.isEmpty && redirects.isEmpty then .error (unexpected ts)
      return (.simple line words redirects, rest)

/-- Reads the commands of a pipe. Every round takes a token. -/
def readPipe (steps : StepReader) : Nat → List Token → Except String (List Command × List Token)
  | 0, ts => .error (unexpected ts)
  | rounds + 1, ts => do
    let (c, ts) ← readCommand steps rounds ts
    match ts with
    | .operator "|" _ :: rest =>
      let (cs, rest) ← readPipe steps rounds (skipLines rest)
      return (c :: cs, rest)
    | ts => return ([c], ts)

/-! ## Steps -/

/-- Reads the steps of a script. Every round takes a token. -/
def readSteps : Nat → Link → List Token → Except String (Script × List Token)
  | 0, _, ts => .error (unexpected ts)
  | rounds + 1, link, ts => do
    let ts := skipLines ts
    if link = .always && isClosed ts then return ([], ts)
    let negated := seesWord "!" ts
    let (pipe, ts) ← readPipe (readSteps rounds .always) rounds (if negated then ts.tail else ts)
    match ts with
    | .operator "&&" _ :: rest =>
      let (more, rest) ← readSteps rounds .onSuccess rest
      return ((link, negated, pipe) :: more, rest)
    | .operator "||" _ :: rest =>
      let (more, rest) ← readSteps rounds .onFailure rest
      return ((link, negated, pipe) :: more, rest)
    | .operator o _ :: rest =>
      if [";", "&", "newline"].contains o then
        let (more, rest) ← readSteps rounds .always rest
        return ((link, negated, pipe) :: more, rest)
      else return ([(link, negated, pipe)], ts)
    | ts => return ([(link, negated, pipe)], ts)

def ofTokens (ts : List Token) : Except String Script := do
  let (script, rest) ← readSteps (2 * ts.length + 2) .always ts
  if rest.isEmpty then return script else .error (unexpected rest)

def ofText (text : String) : Except String Script := do ofTokens (← Token.ofText text)

end Script

end FSharpWorkspace.Shell
