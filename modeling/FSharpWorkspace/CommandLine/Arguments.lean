import FSharpWorkspace.Path
/-!
# Arguments of the command line

`Request.ofArguments` reads the words of a command line from left to right and stops at the first
that is wrong, or that asks for help or for the version. The words before the name of a command and
those after it are two levels: at each of them an option may be given once, and options of every
command may be given at either level, where the one after the name counts.

Options are written `--name`, `--name=value` or, where they have a letter, `-n`; letters may be
joined. A word after an option that takes a value is that value, unless it starts with a dash and
has more to it. After `--` no word is an option.
-/

set_option autoImplicit false

namespace FSharpWorkspace.CommandLine

/-! ## Requests -/

inductive Command where
  | options
  | deps
  | projects
  | visible
deriving DecidableEq, Repr

namespace Command

def all : List Command := [options, deps, projects, visible]

def name : Command → String
  | options => "options"
  | deps => "deps"
  | projects => "projects"
  | visible => "visible"

def ofName? (name : String) : Option Command := all.find? (·.name = name)

theorem ofName?_name (c : Command) : ofName? c.name = some c := by cases c <;> decide

/-- The files that a command takes, each by the word that stands for it. -/
def places : Command → List String
  | options => ["<FILE>"]
  | deps => ["<PROJECT>"]
  | projects => []
  | visible => ["<TARGET>"]

end Command

/-- What a command is asked. -/
inductive Query where
  | options (file : Path)
  | deps (project : Path)
  | projects
  | visible (target from_ : Path)
deriving Repr

/-- A command line that was understood. What is logged is no part of it. -/
structure Request where
  query : Query
  /-- The directory of the workspace, if it is not the working directory. -/
  root : Option Path
  /-- Whether a program will read the answer. -/
  json : Bool
deriving Repr

/-! ## What ends the reading -/

/-- What is wrong with a command line. -/
inductive UsageFault where
  | unexpected (word : String)
  | unknownCommand (word : String)
  | noCommand
  | missing (words : List String)
  | noValue (option : String)
  | needlessValue (option value : String)
  | repeated (option : String)
  | clash (option other : String)
deriving DecidableEq, Repr

def UsageFault.message : UsageFault → String
  | unexpected word => "unexpected argument '" ++ word ++ "' found"
  | unknownCommand word => "unrecognized subcommand '" ++ word ++ "'"
  | noCommand => "a subcommand is required but one was not provided"
  | missing words =>
    "the following required arguments were not provided:" ++ String.join (words.map ("\n  " ++ ·))
  | noValue option => "a value is required for '" ++ option ++ "' but none was supplied"
  | needlessValue option value => "unexpected value '" ++ value ++ "' for '" ++ option ++ "' found"
  | repeated option => "the argument '" ++ option ++ "' cannot be used multiple times"
  | clash option other => "the argument '" ++ option ++ "' cannot be used with '" ++ other ++ "'"

inductive Page where
  | program
  | command (c : Command)
  | help
deriving DecidableEq, Repr

/-- Why reading a command line ends without a request. -/
inductive Stop where
  | version
  | help (page : Page)
  | fault (f : UsageFault)
deriving DecidableEq, Repr

/-! ## Options -/

/-- Where a word stands: before the name of the command, or after it. -/
inductive Level where
  | program
  | command (c : Command)
deriving DecidableEq, Repr

/-- The page about a level. -/
def Level.page : Level → Page
  | program => .program
  | command c => .command c

/-- The files that may be given at a level. -/
def Level.places : Level → List String
  | program => []
  | command c => c.places

/-- The options that take a value. -/
inductive Setting where
  | root
  | from_
deriving DecidableEq, Repr

def Setting.shown : Setting → String
  | root => "--root <DIR>"
  | from_ => "--from <FROM>"

/-- The options that are given or not. -/
inductive Flag where
  | json
  | quiet
  | verbose
deriving DecidableEq, Repr

def Flag.shown : Flag → String
  | json => "--json"
  | quiet => "--quiet"
  | verbose => "--verbose..."

/-- What an option does. -/
inductive Meaning where
  | setting (s : Setting)
  | flag (f : Flag)
  | help
  | version
deriving DecidableEq, Repr

def Level.long? : Level → String → Option Meaning
  | _, "root" => some (.setting .root)
  | _, "json" => some (.flag .json)
  | _, "quiet" => some (.flag .quiet)
  | _, "verbose" => some (.flag .verbose)
  | _, "help" => some .help
  | program, "version" => some .version
  | command .visible, "from" => some (.setting .from_)
  | _, _ => none

/-- The option with a letter. No option with a letter takes a value. -/
def Level.short? : Level → Char → Option Meaning
  | _, 'q' => some (.flag .quiet)
  | _, 'v' => some (.flag .verbose)
  | _, 'h' => some .help
  | program, 'V' => some .version
  | _, _ => none

/-! ## What was given -/

structure Given where
  root : Option String := none
  from_ : Option String := none
  json : Bool := false
  quiet : Bool := false
  verbose : Bool := false
  /-- The files, in order. -/
  places : List String := []
deriving DecidableEq, Repr

namespace Given

/-- Gives an option a value, which it must not have yet. -/
def set (g : Given) (s : Setting) (value : String) : Except Stop Given :=
  let old := match s with
    | .root => g.root
    | .from_ => g.from_
  if old.isSome then .error (.fault (.repeated s.shown))
  else
    match s with
    | .root => .ok { g with root := some value }
    | .from_ => .ok { g with from_ := some value }

/-- Gives an option. All but one may be given only once. -/
def raise (g : Given) (f : Flag) : Except Stop Given :=
  match f with
  | .json => if g.json then .error (.fault (.repeated f.shown)) else .ok { g with json := true }
  | .quiet => if g.quiet then .error (.fault (.repeated f.shown)) else .ok { g with quiet := true }
  | .verbose => .ok { g with verbose := true }

/-- Gives a file, if the level takes one more. -/
def place (g : Given) (level : Level) (word : String) : Except Stop Given :=
  if g.places.length < level.places.length then .ok { g with places := g.places ++ [word] }
  else
    .error (.fault (match level with
      | .program => .unknownCommand word
      | .command _ => .unexpected word))

/-- Gives the options whose letters are joined in a word. -/
def letters (g : Given) (level : Level) : List Char → Except Stop Given
  | [] => .ok g
  | c :: rest =>
    match level.short? c with
    | some (.flag f) => do letters (← g.raise f) level rest
    | some .help => .error (.help level.page)
    | some .version => .error .version
    | _ => .error (.fault (.unexpected ("-" ++ c.toString)))

/-- Two options that contradict each other must not both be given at a level. -/
def checked (g : Given) : Except Stop Given :=
  if g.quiet && g.verbose then .error (.fault (.clash Flag.quiet.shown Flag.verbose.shown))
  else .ok g

end Given

/-! ## Reading -/

inductive Word where
  /-- The mark after which no word is an option. -/
  | ending
  | long (name : String) (value : Option String)
  | short (letters : List Char)
  | plain
deriving DecidableEq, Repr

/-- The form of a word. A dash alone is a plain word. -/
def Word.ofText (text : String) : Word :=
  match text.toList with
  | ['-', '-'] => .ending
  | '-' :: '-' :: rest =>
    let name := rest.takeWhile (· ≠ '=')
    match rest.drop name.length with
    | _ :: value => .long (String.ofList name) (some (String.ofList value))
    | [] => .long (String.ofList name) none
  | '-' :: c :: rest => .short (c :: rest)
  | _ => .plain

/-- The name of a command, or the word that asks for help. -/
inductive Name where
  | command (c : Command)
  | help
deriving DecidableEq, Repr

def Name.ofText? (text : String) : Option Name :=
  if text = "help" then some .help else (Command.ofName? text).map .command

/-- The name that a word is at a level: after the name of a command there are no more names. -/
def Level.name? : Level → String → Option Name
  | program, text => Name.ofText? text
  | command _, _ => none

/-- Reads the words of a level: what was given, and, where the level ends at a name, that name and
the words after it. -/
def readLevel (level : Level) :
    List String → Given → Except Stop (Given × Option (Name × List String))
  | [], g => .ok (g, none)
  | word :: rest, g =>
    match level.name? word with
    | some name => .ok (g, some (name, rest))
    | none =>
      match Word.ofText word with
      | .ending => do return (← rest.foldlM (fun g place => g.place level place) g, none)
      | .plain => do readLevel level rest (← g.place level word)
      | .short cs => do readLevel level rest (← g.letters level cs)
      | .long name value =>
        match level.long? name with
        | none => .error (.fault (.unexpected ("--" ++ name)))
        | some (.setting s) =>
          match value, rest with
          | some v, rest => do readLevel level rest (← g.set s v)
          | none, v :: rest =>
            if Word.ofText v = .plain then do readLevel level rest (← g.set s v)
            else .error (.fault (.noValue s.shown))
          | none, [] => .error (.fault (.noValue s.shown))
        | some meaning =>
          match value, meaning with
          | some v, _ => .error (.fault (.needlessValue ("--" ++ name) v))
          | none, .flag f => do readLevel level rest (← g.raise f)
          | none, .version => .error .version
          | none, _ => .error (.help level.page)

/-- What a command is asked, if everything that it needs was given. -/
def queryOf (c : Command) (g : Given) : Except Stop Query :=
  match c, g.places, g.from_ with
  | .options, [file], _ => .ok (.options ⟨file⟩)
  | .deps, [project], _ => .ok (.deps ⟨project⟩)
  | .projects, _, _ => .ok .projects
  | .visible, [target], some from_ => .ok (.visible ⟨target⟩ ⟨from_⟩)
  | .visible, places, from_ =>
    .error (.fault
      (.missing ((if from_.isNone then [Setting.from_.shown] else []) ++
      c.places.drop places.length)))
  | _, places, _ => .error (.fault (.missing (c.places.drop places.length)))

/-- The page that the words after `help` ask for. -/
def pageOf : List String → Stop
  | [] => .help .program
  | word :: rest =>
    match Name.ofText? word, rest with
    | none, _ => .fault (.unknownCommand word)
    | some _, other :: _ => .fault (.unknownCommand other)
    | some .help, [] => .help .help
    | some (.command c), [] => .help (.command c)

/-- The request that the words of a command line make. -/
def Request.ofArguments (words : List String) : Except Stop Request := do
  let (before, next) ← readLevel .program words {}
  match next with
  | none => throw (.fault .noCommand)
  | some (.help, rest) => throw (pageOf rest)
  | some (.command c, rest) =>
    let (after, _) ← readLevel (.command c) rest {}
    let query ← queryOf c (← after.checked)
    let before ← before.checked
    return ⟨query, (after.root <|> before.root).map (⟨·⟩), after.json || before.json⟩

end FSharpWorkspace.CommandLine
