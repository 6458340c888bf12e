import Columnar.Bytes

namespace Columnar

/-!
Validity bits: which rows of a column hold a value.

The bits are packed into bytes, the lowest bit of a byte first, and bits past the end are zero.
`Validity.toList` is the list of bits that a vector stands for.
-/

structure Validity where
  packed : Array UInt8
  length : Nat
  ones : Nat
deriving Repr

namespace Validity

def empty : Validity := ⟨#[], 0, 0⟩

instance : Inhabited Validity := ⟨empty⟩

/-- A vector with room for so many bits.  It is empty, whatever room it has. -/
def withCapacity (_capacity : Nat) : Validity := empty

def isEmpty (bits : Validity) : Bool := bits.length == 0

/-- Appends a bit.  It opens a new byte when those at hand are full. -/
def push (bits : Validity) (present : Bool) : Validity :=
  let mask : UInt8 := if present then UInt8.ofNat (1 <<< (bits.length % 8)) else 0
  { packed := if bits.length % 8 = 0 then bits.packed.push mask
      else bits.packed.modify (bits.length / 8) (· ||| mask)
    length := bits.length + 1
    ones := bits.ones + present.toNat }

def ofList (list : List Bool) : Validity := list.foldl push empty

/-- The bit at a position, which is zero past the packed bytes. -/
def bitAt (bits : Validity) (index : Nat) : Bool :=
  (bits.packed[index / 8]?.getD 0).toNat.testBit (index % 8)

def get? (bits : Validity) (index : Nat) : Option Bool :=
  if index < bits.length then some (bits.bitAt index) else none

def toList (bits : Validity) : List Bool := (List.range bits.length).map bits.bitAt

/-- The packed bytes, as many as the bits need. -/
def toBytes (bits : Validity) : Bytes := bits.packed.toList.take ((bits.length + 7) / 8)

/-- The bits from `start` up to `stop`, as far as there are any. -/
def slice (bits : Validity) (start stop : Nat) : Validity :=
  let stop := min stop bits.length
  let start := min start stop
  ofList ((List.range' start (stop - start)).map bits.bitAt)

def clone (bits : Validity) : Validity := bits.slice 0 bits.length

def zeros (bits : Validity) : Nat := bits.length - bits.ones

/-- Two vectors are equal when they have the same length and the same bytes. -/
instance : BEq Validity where
  beq left right := left.length == right.length && left.toBytes == right.toBytes

/-- A vector of the given length whose rows are all present. -/
def allPresent (length : Nat) : Validity := ofList (List.replicate length true)

end Validity

end Columnar
