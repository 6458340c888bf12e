import Columnar.Proofs.Bytes.Reading
import Columnar.Proofs.Chunk.Slices

namespace Columnar.Validity

/-!
Validity bits after any operations.

However a vector came about, by pushing, collecting, cloning and slicing in any order, it answers as
the list of bits does that the same operations make.  What carries this is that no bit behind the
last is set.  So a byte that a slice cuts through can be pushed to, the set bits can be counted in
the bytes, and vectors of equal bytes hold equal bits.
-/

/-- How many bits of bytes are set. -/
def setBits (bytes : Bytes) : Nat :=
  total (bytes.map fun byte => (List.range 8).countP byte.toNat.testBit)

/-- The part of a list from `start` up to `stop`, as far as the list goes. -/
def part (start stop : Nat) (list : List Bool) : List Bool :=
  Columnar.slice (min start (min stop list.length)) (min stop list.length) list

/-- Vectors that operations make, and the lists that the same operations make. -/
inductive Reached : Validity → List Bool → Prop
  | withCapacity (capacity : Nat) : Reached (withCapacity capacity) []
  | collect (list : List Bool) : Reached (ofList list) list
  | push {bits : Validity} {list : List Bool} (reached : Reached bits list) (present : Bool) :
      Reached (bits.push present) (list ++ [present])
  | clone {bits : Validity} {list : List Bool} (reached : Reached bits list) :
      Reached bits.clone list
  | slice {bits : Validity} {list : List Bool} (reached : Reached bits list) (start stop : Nat) :
      Reached (bits.slice start stop) (part start stop list)

/-- A vector answers as a list does.  Its bytes hold the list, the lowest bit of a byte first, and
zeros up to the end of the last byte, and count as many set bits as it remembers. -/
structure Answers (bits : Validity) (list : List Bool) : Prop where
  length : bits.length = list.length
  isEmpty : bits.isEmpty = list.isEmpty
  ones : bits.ones = list.count true
  get? : ∀ index, bits.get? index = list[index]?
  toList : bits.toList = list
  size : bits.toBytes.length = (list.length + 7) / 8
  packed : Bitmap.unpacked bits.toBytes.toArray =
    list ++ List.replicate (8 * bits.toBytes.length - list.length) false
  population : setBits bits.toBytes = bits.ones

section Packed

variable {bits other : Validity} {list otherList : List Bool}

theorem count_unpacked (packed : Array UInt8) :
    (Bitmap.unpacked packed).count true = setBits packed.toList := by
  unfold Bitmap.unpacked setBits
  induction packed.toList with
  | nil => rfl
  | cons byte rest ih =>
      have here : ((List.range 8).map byte.toNat.testBit).count true =
          (List.range 8).countP byte.toNat.testBit := by
        rw [List.count, List.countP_map]
        exact List.countP_congr fun place _ => by simp
      rw [List.flatMap_cons, List.count_append, ih, here, List.map_cons, total_cons]

theorem length_unpacked (packed : Array UInt8) :
    (Bitmap.unpacked packed).length = 8 * packed.size := by
  simp [Bitmap.unpacked, List.length_flatMap, Nat.mul_comm]

/-- The bytes hold the list and zeros behind it. -/
theorem Represents.unpacked (represents : Represents bits list) :
    Bitmap.unpacked bits.packed =
      list ++ List.replicate (8 * bits.packed.size - list.length) false := by
  have size := represents.size
  have width := length_unpacked bits.packed
  apply List.ext_getElem
  · rw [width, List.length_append, List.length_replicate]
    omega
  · intro row inside _
    have place : row / 8 < bits.packed.size := by omega
    have bit := represents.bit row
    rw [bitAt, Array.getElem?_eq_getElem place, Option.getD_some] at bit
    have here := Bitmap.getElem?_unpacked bits.packed row
    rw [Array.getElem?_eq_getElem place, Option.map_some, bit, List.getElem?_eq_getElem inside,
      Option.some.injEq] at here
    rw [here, List.getD_eq_getElem?_getD, List.getElem_append]
    split
    · rename_i within
      rw [List.getElem?_eq_getElem within, Option.getD_some]
    · rename_i beyond
      rw [List.getElem?_eq_none (Nat.le_of_not_lt beyond), List.getElem_replicate, Option.getD_none]

/-- Counting the set bits of the bytes counts those of the list, for no other bit is set. -/
theorem Represents.setBits (represents : Represents bits list) :
    setBits bits.packed.toList = list.count true := by
  rw [← count_unpacked, represents.unpacked, List.count_append, List.count_replicate]
  simp

theorem Represents.answers (represents : Represents bits list) : Answers bits list := by
  have bytes := represents.toBytes
  refine ⟨represents.length, ?_, represents.ones, represents.get?, represents.toList, ?_, ?_, ?_⟩
  · rw [isEmpty, represents.length]
    cases list <;> rfl
  · rw [bytes, Array.length_toList, represents.size]
  · rw [bytes, Array.toArray_toList, Array.length_toList, represents.unpacked]
  · rw [bytes, represents.setBits, represents.ones]

theorem byte_eq_of_testBit {left right : UInt8}
    (same : ∀ place < 8, left.toNat.testBit place = right.toNat.testBit place) : left = right := by
  apply UInt8.toNat_inj.mp
  apply Nat.eq_of_testBit_eq
  intro place
  by_cases inside : place < 8
  · exact same place inside
  · have beyond (byte : UInt8) : byte.toNat.testBit place = false :=
      Nat.testBit_lt_two_pow (Nat.lt_of_lt_of_le byte.toNat_lt
        (Nat.pow_le_pow_right (by decide) (Nat.le_of_not_lt inside)))
    rw [beyond, beyond]

/-- A list determines the vector that stands for it. -/
theorem Represents.unique (left : Represents bits list) (right : Represents other list) :
    bits = other := by
  have packed : bits.packed = other.packed := by
    apply Array.ext
    · rw [left.size, right.size]
    · intro row inside insideOther
      apply byte_eq_of_testBit
      intro place below
      have row_eq : (8 * row + place) / 8 = row := by omega
      have place_eq : (8 * row + place) % 8 = place := by omega
      have same := (left.bit (8 * row + place)).trans (right.bit (8 * row + place)).symm
      simpa only [bitAt, row_eq, place_eq, Array.getElem?_eq_getElem inside,
        Array.getElem?_eq_getElem insideOther, Option.getD_some] using same
  have length := left.length.trans right.length.symm
  have ones := left.ones.trans right.ones.symm
  have same : (⟨bits.packed, bits.length, bits.ones⟩ : Validity) =
      ⟨other.packed, other.length, other.ones⟩ := by rw [packed, length, ones]
  exact same

theorem beq_iff_toBytes :
    (bits == other) = true ↔ bits.length = other.length ∧ bits.toBytes = other.toBytes := by
  rw [← beq_iff_eq (a := bits.toBytes), ← beq_iff_eq (a := bits.length), ← Bool.and_eq_true]
  rfl

/-- Vectors are equal exactly when they stand for the same list. -/
theorem Represents.beq_iff (left : Represents bits list) (right : Represents other otherList) :
    (bits == other) = true ↔ list = otherList := by
  rw [beq_iff_toBytes]
  constructor
  · rintro ⟨lengths, bytes⟩
    rw [left.toBytes, right.toBytes, Array.toList_inj] at bytes
    rw [left.length, right.length] at lengths
    have held := left.unpacked
    rw [bytes, right.unpacked] at held
    exact (List.append_inj_left held lengths.symm).symm
  · rintro rfl
    rw [left.unique right]
    exact ⟨rfl, rfl⟩

end Packed

section Operations

variable {bits other : Validity} {list otherList : List Bool}

theorem part_eq (start stop : Nat) (list : List Bool) :
    part start stop list = (list.take stop).drop start := by
  apply List.ext_getElem?
  intro row
  simp only [part, Columnar.slice, List.getElem?_take, List.getElem?_drop]
  by_cases inside : start + row < stop ∧ start + row < list.length
  · have place : min start (min stop list.length) = start := by omega
    rw [place, if_pos inside.1, if_pos (by omega)]
  · rw [if_neg (by omega)]
    split
    · exact (List.getElem?_eq_none (by omega)).symm
    · rfl

theorem Represents.part (represents : Represents bits list) (start stop : Nat) :
    Represents (bits.slice start stop) (part start stop list) := by
  rw [represents.slice, part_eq]
  exact represents_ofList _

theorem Represents.clone (represents : Represents bits list) : Represents bits.clone list := by
  have whole := represents.part 0 bits.length
  rwa [part_eq, represents.length, List.take_length, List.drop_zero, ← represents.length] at whole

/-- No operation sets a bit behind the last. -/
theorem Reached.represents (reached : Reached bits list) : Represents bits list := by
  induction reached with
  | withCapacity capacity => exact represents_empty
  | collect list => exact represents_ofList list
  | push reached present ih => exact ih.push present
  | clone reached ih => exact ih.clone
  | slice reached start stop ih => exact ih.part start stop

theorem Reached.pushed (reached : Reached bits list) (more : List Bool) :
    Reached (more.foldl Validity.push bits) (list ++ more) := by
  induction more generalizing bits list with
  | nil => rwa [List.append_nil]
  | cons present rest ih =>
      rw [List.append_cons]
      exact ih (reached.push present)

/-- Whatever operations made vectors, they answer as their lists do, also when more bits are pushed
to their slices and their clones, and they are equal exactly when the lists are. -/
theorem reached_answers (reached : Reached bits list) (otherReached : Reached other otherList) :
    Answers bits list ∧ ((bits == other) = true ↔ list = otherList) ∧
      ∀ start stop more,
        Answers (more.foldl Validity.push (bits.slice start stop)) (part start stop list ++ more) ∧
          Answers (more.foldl Validity.push bits.clone) (list ++ more) := by
  refine ⟨reached.represents.answers, reached.represents.beq_iff otherReached.represents, ?_⟩
  intro start stop more
  exact ⟨((reached.slice start stop).pushed more).represents.answers,
    (reached.clone.pushed more).represents.answers⟩

end Operations

/-- A bit pushed to a slice that begins and ends inside of bytes, and the same bits pushed to a
vector with more room than they need. -/
theorem reached_answers_cutBytes :
    (((ofList (List.replicate 20 true)).slice 3 12).push false).toList =
        List.replicate 9 true ++ [false] ∧
      (((ofList (List.replicate 20 true)).slice 3 12).push false).ones = 9 ∧
      (((ofList (List.replicate 20 true)).slice 3 12).push false ==
        (List.replicate 9 true ++ [false]).foldl Validity.push (withCapacity 1024)) = true := by
  obtain ⟨answers, equal, -⟩ := reached_answers
    (((Reached.collect (List.replicate 20 true)).slice 3 12).push false)
    ((Reached.withCapacity 1024).pushed (List.replicate 9 true ++ [false]))
  exact ⟨answers.toList, answers.ones, equal.mpr rfl⟩

end Columnar.Validity
