import Columnar.Column.Kind

namespace Columnar

/-!
Schemes: the ways in which the slots of a chunk can be written.

`Scheme.candidates` lists those that a column type allows, in the order in which equally short
ones are preferred.
-/

inductive Scheme where
  | uncompressed
  | oneValue
  | runLength
  | dictionary
deriving DecidableEq, Repr

namespace Scheme

def tag : Scheme → UInt8
  | .uncompressed => 0
  | .oneValue => 1
  | .runLength => 2
  | .dictionary => 3

def ofTag? (tag : UInt8) : Option Scheme :=
  if tag = 0 then some .uncompressed
  else if tag = 1 then some .oneValue
  else if tag = 2 then some .runLength
  else if tag = 3 then some .dictionary
  else none

def name : Scheme → String
  | .uncompressed => "Uncompressed"
  | .oneValue => "OneValue"
  | .runLength => "Rle"
  | .dictionary => "Dictionary"

def candidates : ColumnType → List Scheme
  | .integer | .double => [.uncompressed, .oneValue, .runLength]
  | .string => [.uncompressed, .oneValue, .dictionary]
  | .skip => []

theorem ofTag?_tag (scheme : Scheme) : ofTag? scheme.tag = some scheme := by
  cases scheme <;> decide

end Scheme

end Columnar
