import Columnar.Text.Blank

namespace Columnar

/-!
Column types.

A column holds integers, doubles or strings, or is skipped.  Stored files carry the type as a tag;
a schema declares it by a word, and every word that is not known declares a skipped column.
-/

inductive ColumnType where
  | integer
  | double
  | string
  | skip
deriving DecidableEq, Repr

namespace ColumnType

def tag : ColumnType → UInt32
  | .integer => 0
  | .double => 1
  | .string => 2
  | .skip => 3

def ofTag? (tag : UInt32) : Option ColumnType :=
  if tag = 0 then some .integer
  else if tag = 1 then some .double
  else if tag = 2 then some .string
  else if tag = 3 then some .skip
  else none

def name : ColumnType → String
  | .integer => "INTEGER"
  | .double => "DOUBLE"
  | .string => "STRING"
  | .skip => "SKIP"

/-- The type that a schema declares, blanks around the word and its case set aside. -/
def ofDeclared (declared : String) : ColumnType :=
  let word := String.ofList ((Text.trim declared).toList.map Char.toLower)
  if word = "integer" ∨ word = "smallint" then .integer
  else if word = "double" ∨ word = "float" then .double
  else if word = "string" then .string
  else .skip

/-- How a tag is named in messages, known or not. -/
def nameOfTag (tag : UInt32) : String :=
  match ofTag? tag with
  | some known => known.name
  | none => s!"UNKNOWN({tag.toNat})"

theorem ofTag?_tag (type : ColumnType) : ofTag? type.tag = some type := by
  cases type <;> decide

theorem eq_of_tag {first second : ColumnType} (same : first.tag = second.tag) : first = second := by
  have known := congrArg ofTag? same
  rw [ofTag?_tag, ofTag?_tag] at known
  exact Option.some.inj known

theorem tag_of_ofTag? {tag : UInt32} {type : ColumnType} (known : ofTag? tag = some type) :
    type.tag = tag := by
  unfold ofTag? at known
  split at known
  · cases known; simp [ColumnType.tag, *]
  split at known
  · cases known; simp [ColumnType.tag, *]
  split at known
  · cases known; simp [ColumnType.tag, *]
  split at known
  · cases known; simp [ColumnType.tag, *]
  · contradiction

end ColumnType

/-- A column of a schema. -/
structure ColumnSpec where
  name : String
  type : ColumnType
deriving DecidableEq, Repr

namespace ColumnSpec

def ofDeclared (name declared : String) : ColumnSpec := ⟨name, .ofDeclared declared⟩

/-- Reads `name:type`; the last colon divides, so a name may hold colons. -/
def parse? (spec : String) : Option ColumnSpec :=
  let reversed := spec.toList.reverse
  match reversed.dropWhile (· ≠ ':') with
  | [] => none
  | _ :: name =>
      let declared := (reversed.takeWhile (· ≠ ':')).reverse
      some (ofDeclared (String.ofList name.reverse) (String.ofList declared))

end ColumnSpec

end Columnar
