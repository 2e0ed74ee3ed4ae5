import FSharpWorkspace.Number.Binary64
import FSharpWorkspace.Text.Quoted
/-!
# Faults of JSON texts

The first fault that a reader meets decides what is wrong with a text, and where: a fault keeps
the bytes that were unread when it was found, and `Fault.message` counts lines and columns of
what had been read.
-/

set_option autoImplicit false

namespace FSharpWorkspace.Json

/-! ## Causes -/

/-- What stands where a value of another type was expected. -/
inductive Found where
  | null
  | boolean (b : Bool)
  | integer (n : Int)
  | float (x : Binary64)
  | string (text : String)
  | list
  | object
deriving DecidableEq, Repr

def Found.text : Found → String
  | null => "null"
  | boolean b => "boolean `" ++ (if b then "true" else "false") ++ "`"
  | integer n => "integer `" ++ toString n ++ "`"
  | float x => "floating point `" ++ x.pointedText ++ "`"
  | string t => "string " ++ Text.quoted t
  | list => "sequence"
  | object => "map"

inductive Cause where
  | endInList
  | endInObject
  | endInString
  | endInValue
  | noColon
  | noListEnd
  | noObjectEnd
  | unknownWord
  | noValue
  | badEscape
  | badNumber
  | numberOutOfRange
  | badCodePoint
  | controlCharacter
  | keyNotString
  | loneSurrogate
  | trailingComma
  | trailingCharacters
  | cutEscape
  | wrongType (found : Found) (expected : String)
  | repeatedField (name : String)
deriving DecidableEq, Repr

/-- Causes fall into three classes. -/
inductive Category where
  /-- The text ended too soon. -/
  | ending
  /-- The text is well formed up to a value of a wrong type, or a repeated field. -/
  | data
  /-- The text is not well formed. -/
  | form
deriving DecidableEq, Repr

def Category.name : Category → String
  | ending => "eof"
  | data => "data"
  | form => "syntax"

namespace Cause

def category : Cause → Category
  | endInList => .ending
  | endInObject => .ending
  | endInString => .ending
  | endInValue => .ending
  | wrongType _ _ => .data
  | repeatedField _ => .data
  | _ => .form

def text : Cause → String
  | endInList => "EOF while parsing a list"
  | endInObject => "EOF while parsing an object"
  | endInString => "EOF while parsing a string"
  | endInValue => "EOF while parsing a value"
  | noColon => "expected `:`"
  | noListEnd => "expected `,` or `]`"
  | noObjectEnd => "expected `,` or `\x7d`"
  | unknownWord => "expected ident"
  | noValue => "expected value"
  | badEscape => "invalid escape"
  | badNumber => "invalid number"
  | numberOutOfRange => "number out of range"
  | badCodePoint => "invalid unicode code point"
  | controlCharacter => "control character (\\u0000-\\u001F) found while parsing a string"
  | keyNotString => "key must be a string"
  | loneSurrogate => "lone leading surrogate in hex escape"
  | trailingComma => "trailing comma"
  | trailingCharacters => "trailing characters"
  | cutEscape => "unexpected end of hex escape"
  | wrongType found expected => "invalid type: " ++ found.text ++ ", expected " ++ expected
  | repeatedField name => "duplicate field `" ++ name ++ "`"

end Cause

/-! ## Faults -/

/-- A cause, with the bytes that were unread when it was found. -/
structure Fault where
  cause : Cause
  unread : List UInt8
deriving DecidableEq, Repr

namespace Fault

/-- The line, counted from one, in which some bytes end. -/
def lineOf (bytes : List UInt8) : Nat := 1 + bytes.count 0x0A

def columnOf (bytes : List UInt8) : Nat := (bytes.reverse.takeWhile (· ≠ 0x0A)).length

/-- The wording of a fault in a text, with its place. -/
def message (whole : List UInt8) (fault : Fault) : String :=
  let done := whole.take (whole.length - fault.unread.length)
  fault.cause.text ++ " at line " ++ toString (lineOf done) ++
    " column " ++ toString (columnOf done)

end Fault

end FSharpWorkspace.Json
