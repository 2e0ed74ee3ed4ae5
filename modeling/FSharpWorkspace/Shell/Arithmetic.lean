import FSharpWorkspace.Shell.Token
/-!
# Arithmetic of shell scripts

Expressions over integers and variables. `Arithmetic.evaluate` reads an expression and computes it
on the way, stronger operators first; an assignment in it changes the variables. Truth is one, and
everything but zero is true.
-/

set_option autoImplicit false

namespace FSharpWorkspace.Shell.Arithmetic

inductive Piece where
  | number (n : Int)
  | name (text : String)
  | operator (text : String)
deriving DecidableEq, Repr

/-! ## Pieces -/

/-- Operators, longer ones before those that they start with. -/
def operators : List String :=
  ["<<=", ">>=", "||", "&&", "==", "!=", "<=", ">=", "<<", ">>", "+=", "-=", "*=",
    "/=", "%=", "&=", "|=", "^=",
    "+", "-", "*", "/", "%", "<", ">", "&", "|", "^", "!", "~", "(", ")", "?", ":", "="]

def digit? (base : Nat) (c : Char) : Option Nat :=
  let n :=
    if c.isDigit then c.toNat - '0'.toNat
    else if c.isAlpha then c.toLower.toNat - 'a'.toNat + 10
    else base
  if n < base then some n else none

def inBase? (base : Nat) (digits : List Char) : Option Nat :=
  if digits.isEmpty then none
  else (digits.mapM (digit? base)).map fun ds => ds.foldl (fun n d => n * base + d) 0

/-- A number in the base that its start tells. -/
def number? : List Char → Option Nat
  | '0' :: 'x' :: rest => inBase? 16 rest
  | '0' :: 'X' :: rest => inBase? 16 rest
  | '0' :: d :: rest => inBase? 8 (d :: rest)
  | digits => inBase? 10 digits

/-- The number that a value is; nothing is zero. -/
def valueOf? (text : String) : Option Int :=
  let isBlank (c : Char) : Bool := c = ' ' || c = '\t' || c = '\n'
  let word := ((text.toList.dropWhile isBlank).reverse.dropWhile isBlank).reverse
  match word with
  | [] => some 0
  | '-' :: digits => (number? digits).map fun n => -(n : Int)
  | '+' :: digits => (number? digits).map fun n => (n : Int)
  | digits => (number? digits).map fun n => (n : Int)

/-- Cuts an expression into pieces. Every round takes a character. -/
def piecesOf : Nat → List Char → Option (List Piece)
  | _, [] => some []
  | 0, _ => none
  | rounds + 1, c :: rest =>
    if c = ' ' || c = '\t' || c = '\n' then piecesOf rounds rest
    else
      let word := (c :: rest).takeWhile Token.isNameChar
      if c.isDigit then do
        let n ← number? word
        return .number n :: (← piecesOf rounds ((c :: rest).drop word.length))
      else if Token.startsName c then do
        return .name (String.ofList word) :: (← piecesOf rounds ((c :: rest).drop word.length))
      else do
        let o ← operators.find? fun o => o.toList.isPrefixOf (c :: rest)
        return .operator o :: (← piecesOf rounds ((c :: rest).drop o.length))

/-! ## Values -/

inductive Fault where
  | noValue
  | noEnd
  | byZero
  | notNumber (text : String)
deriving DecidableEq, Repr

def Fault.message (expression : String) : Fault → String
  | noValue => "arithmetic expression: expecting primary: \"" ++ expression ++ "\""
  | noEnd => "arithmetic expression: expecting EOF: \"" ++ expression ++ "\""
  | byZero => "arithmetic expression: division by zero: \"" ++ expression ++ "\""
  | notNumber text => "Illegal number: " ++ text

/-- Computing changes variables, or fails. -/
abbrev Computing := StateT (List (String × String)) (Except Fault)

def truth (b : Bool) : Int := if b then 1 else 0

/-- How strongly an operator binds its two sides. -/
def strength? : String → Option Nat
  | "||" => some 1
  | "&&" => some 2
  | "|" => some 3
  | "^" => some 4
  | "&" => some 5
  | "==" => some 6
  | "!=" => some 6
  | "<" => some 7
  | ">" => some 7
  | "<=" => some 7
  | ">=" => some 7
  | "<<" => some 8
  | ">>" => some 8
  | "+" => some 9
  | "-" => some 9
  | "*" => some 10
  | "/" => some 10
  | "%" => some 10
  | _ => none

/-- The bits of two numbers joined by an operator on bits. -/
def onBits (f : Nat → Nat → Nat) (a b : Int) : Int :=
  let bits (n : Int) : Nat := (n % UInt64.size).toNat
  (f (bits a) (bits b) : Int).bmod UInt64.size

/-- An operator between two numbers. -/
def apply (operator : String) (a b : Int) : Except Fault Int :=
  match operator with
  | "||" => .ok (truth (a ≠ 0 || b ≠ 0))
  | "&&" => .ok (truth (a ≠ 0 && b ≠ 0))
  | "|" => .ok (onBits Nat.lor a b)
  | "^" => .ok (onBits Nat.xor a b)
  | "&" => .ok (onBits Nat.land a b)
  | "==" => .ok (truth (a = b))
  | "!=" => .ok (truth (a ≠ b))
  | "<" => .ok (truth (a < b))
  | ">" => .ok (truth (a > b))
  | "<=" => .ok (truth (a ≤ b))
  | ">=" => .ok (truth (a ≥ b))
  | "<<" => .ok ((a * Nat.pow 2 (b % 64).toNat).bmod UInt64.size)
  | ">>" => .ok (Int.fdiv a (Nat.pow 2 (b % 64).toNat))
  | "+" => .ok ((a + b).bmod UInt64.size)
  | "-" => .ok ((a - b).bmod UInt64.size)
  | "*" => .ok ((a * b).bmod UInt64.size)
  | "/" => if b = 0 then .error .byZero else .ok (Int.tdiv a b)
  | _ => if b = 0 then .error .byZero else .ok (Int.tmod a b)

def valueOf (name : String) : Computing Int := do
  let text := ((← get).lookup name).getD ""
  match valueOf? text with
  | some n => return n
  | none => throw (.notNumber text)

/-- The operator by which an assignment joins the old value with the new one. -/
def joining? (assignment : String) : Option String :=
  let o := assignment.toList.dropLast
  if assignment.toList.getLast? = some '=' &&
    (o.isEmpty || (strength? (String.ofList o)).any (· ≠ 7)) &&
      !(["==", "!="].contains assignment) then
    some (String.ofList o)
  else none

mutual

/-- Computes a value without an operator between two sides. Every round takes a piece. -/
def unary : Nat → List Piece → Computing (Int × List Piece)
  | 0, _ => throw .noValue
  | rounds + 1, pieces =>
    match pieces with
    | .number n :: rest => return (n, rest)
    | .name x :: .operator o :: rest => do
      match joining? o with
      | none => return (← valueOf x, .operator o :: rest)
      | some joint =>
        let (n, rest) ← choice rounds rest
        let n ← if joint.isEmpty then pure n else do liftExcept (apply joint (← valueOf x) n)
        modify ((x, toString n) :: ·)
        return (n, rest)
    | .name x :: rest => do return (← valueOf x, rest)
    | .operator "(" :: rest => do
      let (n, rest) ← choice rounds rest
      match rest with
      | .operator ")" :: rest => return (n, rest)
      | _ => throw .noEnd
    | .operator "-" :: rest => do
      let (n, rest) ← unary rounds rest
      return (-n, rest)
    | .operator "+" :: rest => unary rounds rest
    | .operator "!" :: rest => do
      let (n, rest) ← unary rounds rest
      return (truth (n = 0), rest)
    | .operator "~" :: rest => do
      let (n, rest) ← unary rounds rest
      return (-n - 1, rest)
    | _ => throw .noValue
termination_by rounds => (rounds, 0)

/-- Goes on with operators that bind at least as strongly as `least`. Every round
takes an operator. -/
def binary : Nat → Nat → Int → List Piece → Computing (Int × List Piece)
  | 0, _, n, pieces => return (n, pieces)
  | rounds + 1, least, n, pieces =>
    match pieces with
    | .operator o :: rest =>
      match strength? o with
      | none => return (n, pieces)
      | some s =>
        if s < least then return (n, pieces)
        else do
          let (m, rest) ← unary rounds rest
          let (m, rest) ← binary rounds (s + 1) m rest
          binary rounds least (← liftExcept (apply o n m)) rest
    | _ => return (n, pieces)
termination_by rounds => (rounds, 1)

/-- Computes a value that may be one of two. Every round takes a piece. -/
def choice : Nat → List Piece → Computing (Int × List Piece)
  | 0, _ => throw .noValue
  | rounds + 1, pieces => do
    let (n, rest) ← unary rounds pieces
    let (n, rest) ← binary rounds 1 n rest
    match rest with
    | .operator "?" :: rest =>
      let (yes, rest) ← choice rounds rest
      match rest with
      | .operator ":" :: rest =>
        let (no, rest) ← choice rounds rest
        return (if n ≠ 0 then yes else no, rest)
      | _ => throw .noEnd
    | rest => return (n, rest)
termination_by rounds => (rounds, 2)

end

/-- The value of an expression, and the variables afterwards. -/
def evaluate (bindings : List (String × String)) (expression : String) :
    Except String (Int × List (String × String)) :=
  match piecesOf expression.length expression.toList with
  | none => .error (Fault.noValue.message expression)
  | some pieces =>
    let computed : Computing Int := do
      let (n, rest) ← choice (4 * pieces.length + 4) pieces
      if rest.isEmpty then return n else throw .noEnd
    match computed.run bindings with
    | .ok result => .ok result
    | .error f => .error (f.message expression)

end FSharpWorkspace.Shell.Arithmetic
