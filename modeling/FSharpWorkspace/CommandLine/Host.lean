import FSharpWorkspace.CommandLine.Run
/-!
# Hosts written down

A host is written down as lines of fields between tabs, one line for each item on its disk:

* `directory`, then a path;
* `link`, then a path and a target;
* `file`, then a path and the bytes in hexadecimal digits.

The line `at` with a path names the working directory, and `user` with bytes gives the
settings of the user.
-/

set_option autoImplicit false

namespace FSharpWorkspace.CommandLine

def hexDigit? (c : Char) : Option Nat :=
  if c.isDigit then some (c.toNat - '0'.toNat)
  else if 'a' ≤ c ∧ c ≤ 'f' then some (c.toNat - 'a'.toNat + 10)
  else none

/-- The bytes that pairs of digits stand for. -/
def hexBytes? : List Char → Option (List UInt8)
  | [] => some []
  | a :: b :: rest =>
    do return (16 * (← hexDigit? a) + (← hexDigit? b)).toUInt8 :: (← hexBytes? rest)
  | [_] => none

namespace Host

def empty : Host := ⟨.empty, .root, none⟩

def put (h : Host) (path : String) (item : Item) : Host :=
  { h with disk := h.disk.write .root ⟨path⟩ item }

/-- The host with what a line says of it. -/
def withLine? (h : Host) (line : List Char) : Option Host :=
  match (Text.splitOn '\t' line).map String.ofList with
  | [""] => some h
  | ["directory", path] => some (h.put path .directory)
  | ["link", path, target] => some (h.put path (.link target))
  | ["file", path, bytes] => (hexBytes? bytes.toList).map fun bytes => h.put path (.file bytes)
  | ["at", path] => some { h with directory := h.disk.locate h.directory ⟨path⟩ }
  | ["user", bytes] =>
    (hexBytes? bytes.toList).map fun bytes => { h with user := Utf8.decode? bytes }
  | _ => none

def ofText? (text : String) : Option Host := (Text.splitOn '\n' text.toList).foldlM withLine? empty

end Host

end FSharpWorkspace.CommandLine
