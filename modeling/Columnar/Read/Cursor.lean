namespace Columnar

/-!
Walking over the chunks of several parts.

A cursor stands in front of a chunk of a part.  Advancing steps over parts that are exhausted, so
empty parts in any place are passed by.
-/

structure ChunkCursor where
  part : Nat
  chunk : Nat
deriving DecidableEq, Repr

namespace ChunkCursor

def start : ChunkCursor := ⟨0, 0⟩

/-- The next chunk, as its part and its index in the part, and the cursor behind it.  When there
is none the cursor stays behind the last part. -/
def advance (counts : Array Nat) (cursor : ChunkCursor) : Option (Nat × Nat) × ChunkCursor :=
  match _found : counts[cursor.part]? with
  | none => (none, cursor)
  | some count =>
      if cursor.chunk < count then
        (some (cursor.part, cursor.chunk), ⟨cursor.part, cursor.chunk + 1⟩)
      else advance counts ⟨cursor.part + 1, 0⟩
termination_by counts.size - cursor.part
decreasing_by
  have inside := (Array.getElem?_eq_some_iff.mp _found).1
  omega

end ChunkCursor

end Columnar
