import Columnar.Text.Utf8

namespace Columnar

/-!
Locations of objects.

A location is a list of segments, none of them empty, written with slashes between them.  In a
segment taken from a path, control characters, characters outside ASCII and some others stand as
percent escapes of their bytes, and so do the segments `.` and `..`.
-/

/-- Two upper-case hexadecimal digits behind a percent sign. -/
def percentEscape (byte : UInt8) : List Char :=
  let digit (value : Nat) : Char :=
    Char.ofNat (if value < 10 then '0'.toNat + value else 'A'.toNat + (value - 10))
  ['%', digit (byte.toNat / 16), digit (byte.toNat % 16)]

/-- Writes a text with escapes for what lies outside printable ASCII and for the given
characters. -/
def percentEncode (reserved : List Char) (chars : List Char) : List Char :=
  chars.flatMap fun char =>
    if char.toNat < 0x20 ∨ 0x7F ≤ char.toNat ∨ char ∈ reserved then
      (Text.encode (String.ofList [char])).flatMap percentEscape
    else [char]

structure Location where
  segments : List String
deriving DecidableEq, Repr

namespace Location

/-- The characters that a segment escapes besides controls and those outside ASCII. -/
def reserved : List Char := "\\\x7b^\x7d%`]\">[~<#|*?".toList

def encodeSegment (segment : List Char) : String :=
  if segment = ['.'] then "%2E"
  else if segment = ['.', '.'] then "%2E%2E"
  else String.ofList (percentEncode reserved segment)

/-- The location of a path: its segments without the empty ones. -/
def ofPath (path : String) : Location :=
  ⟨((path.toList.splitOn '/').filter (· ≠ [])).map encodeSegment⟩

/-- The location of a name inside a directory. -/
def child (directory : Location) (name : String) : Location :=
  ⟨directory.segments ++ [encodeSegment name.toList]⟩

def text (location : Location) : String := "/".intercalate location.segments

end Location

end Columnar
