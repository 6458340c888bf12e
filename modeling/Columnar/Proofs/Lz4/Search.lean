import Columnar.Lz4.Search
import Columnar.Proofs.Lz4.Blocks

namespace Columnar.Lz4

/-!
The search finds copies that agree.

Every hit is compared before it is taken, and grown only over bytes that agree.  So whatever the
hash table remembers, the block of a byte string stands for it, and compressed bytes expand again.
-/

section Hits

variable {data : Array UInt8} {position source : Nat}

theorem wordAt_injective (first : source + 4 ≤ data.size) (second : position + 4 ≤ data.size)
    (same : wordAt data 4 source = wordAt data 4 position) {index : Nat} (inside : index < 4) :
    data[source + index]? = data[position + index]? := by
  have read (place : Nat) (enough : place + 4 ≤ data.size) :
      Bytes.ofNat 4 (wordAt data 4 place) = slice place (place + 4) data.toList := by
    have length : (slice place (place + 4) data.toList).length = 4 := by
      rw [length_slice _ _ _ (by simpa using enough)]
      omega
    have whole := Bytes.ofNat_toNat (slice place (place + 4) data.toList)
    rw [length] at whole
    rw [wordAt, ← @Array.toArray_toList _ data, Bytes.readNat?_toArray,
      if_pos (by simpa using enough), Option.getD_some, whole]
  have slices := (read source first).symm.trans ((congrArg (Bytes.ofNat 4) same).trans
    (read position second))
  have entry (place : Nat) :
      (slice place (place + 4) data.toList)[index]? = data[place + index]? := by
    rw [slice, List.getElem?_take_of_lt (by omega), List.getElem?_drop, Array.getElem?_toList]
  rw [← entry, slices, entry]

/-- A position of a hit has room behind it, and its bytes stand at the source too. -/
structure Hit.Sound (data : Array UInt8) (start : Nat) (hit : Hit) : Prop where
  behind : start ≤ hit.position
  before : hit.source < hit.position
  near : hit.position - hit.source ≤ farthest
  room : hit.position + startMargin ≤ data.size
  equal : ∀ index < minimumMatch, data[hit.source + index]? = data[hit.position + index]?

theorem findHit_sound {table after : Table} {misses : Nat} {hit : Hit}
    (found : findHit data table position misses = (some hit, after)) :
    hit.Sound data position := by
  fun_induction findHit data table position misses with
  | case1 table position misses short => simp at found
  | case2 table position misses long hash source remembered near =>
      simp only [Prod.mk.injEq, Option.some.injEq] at found
      obtain ⟨rfl, -⟩ := found
      obtain ⟨before, reach, same⟩ := near
      have room : position + startMargin ≤ data.size := Nat.le_of_not_lt long
      have margin : startMargin = 12 := rfl
      refine ⟨Nat.le_refl _, before, reach, room, ?_⟩
      intro index inside
      exact wordAt_injective (by omega) (by omega) same inside
  | case3 table position misses long hash source remembered far ih =>
      obtain ⟨behind, before, near, room, equal⟩ := ih found
      exact ⟨by omega, before, near, room, equal⟩

/-- Moving a hit back keeps its distance and adds only bytes that agree. -/
theorem extendBack_sound (data : Array UInt8) {start : Nat} (behind : start ≤ position)
    (before : source < position) :
    ∃ moved, extendBack data start source position = ⟨source - moved, position - moved⟩ ∧
      moved ≤ source ∧ start + moved ≤ position ∧
      ∀ index < moved,
        data[source - moved + index]? = data[position - moved + index]? := by
  induction source generalizing position with
  | zero => exact ⟨0, rfl, Nat.le_refl _, behind, by simp⟩
  | succ source ih =>
      rw [extendBack]
      split
      · rename_i grows
        obtain ⟨inside, same⟩ := grows
        obtain ⟨moved, found, small, room, equal⟩ := @ih (position - 1) (by omega) (by omega)
        refine ⟨moved + 1, ?_, by omega, by omega, ?_⟩
        · rw [found]
          congr 1 <;> omega
        · intro index within
          have sourcePlace : source + 1 - (moved + 1) = source - moved := by omega
          have positionPlace : position - (moved + 1) = position - 1 - moved := by omega
          rw [sourcePlace, positionPlace]
          by_cases last : index = moved
          · have sourceEnd : source - moved + moved = source := by omega
            have positionEnd : position - 1 - moved + moved = position - 1 := by omega
            rw [last, sourceEnd, positionEnd, same]
          · exact equal index (by omega)
      · exact ⟨0, rfl, Nat.zero_le _, behind, by simp⟩

theorem countAgreeing_sound (source agreed : Nat) (inside : position ≤ data.size) :
    ∃ count, countAgreeing data source position agreed = agreed + count ∧
      position + count ≤ data.size ∧
      ∀ index < count, data[source + index]? = data[position + index]? := by
  fun_induction countAgreeing data source position agreed with
  | case1 source position agreed grows ih =>
      obtain ⟨room, same⟩ := grows
      obtain ⟨count, counted, bound, equal⟩ := ih (by omega)
      refine ⟨count + 1, by omega, by omega, ?_⟩
      intro index within
      cases index with
      | zero => exact same
      | succ index =>
          have sourcePlace : source + (index + 1) = source + 1 + index := by omega
          have positionPlace : position + (index + 1) = position + 1 + index := by omega
          rw [sourcePlace, positionPlace]
          exact equal index (by omega)
  | case2 source position agreed stops => exact ⟨0, rfl, inside, by simp⟩

end Hits

theorem between_eq (data : Array UInt8) (start stop : Nat) :
    between data start stop = slice start stop data.toList := by
  rw [between, ← toList_extract, Array.toArray_toList]

theorem between_end (data : Array UInt8) (start : Nat) :
    between data start data.size = data.toList.drop start := by
  rw [between_eq, slice, List.take_of_length_le (by simp)]

/-- A hit moved back and grown: its bytes agree before, at and behind the four compared first. -/
theorem agrees_grown {data : Array UInt8} {source position moved count : Nat}
    (back : moved ≤ source) (before : source < position)
    (limit : position - moved + minimumMatch + count ≤ data.size)
    (earlier : ∀ index < moved, data[source - moved + index]? = data[position - moved + index]?)
    (first : ∀ index < minimumMatch, data[source + index]? = data[position + index]?)
    (later : ∀ index < count, data[source - moved + minimumMatch + index]? =
      data[position - moved + minimumMatch + index]?) :
    Agrees data.toList (position - moved) (position - moved - (source - moved))
      (minimumMatch + count) := by
  refine ⟨by omega, by rw [Array.length_toList]; omega, ?_⟩
  intro index within
  have place : position - moved + index - (position - moved - (source - moved)) =
      source - moved + index := by omega
  rw [place, Array.getElem?_toList, Array.getElem?_toList]
  have least : minimumMatch = 4 := rfl
  by_cases inBack : index < moved
  · exact (earlier index inBack).symm
  by_cases inFirst : index < moved + minimumMatch
  · have shifted := first (index - moved) (by omega)
    have sourcePlace : source + (index - moved) = source - moved + index := by omega
    have positionPlace : position + (index - moved) = position - moved + index := by omega
    rw [sourcePlace, positionPlace] at shifted
    exact shifted.symm
  · have shifted := later (index - minimumMatch) (by omega)
    have sourcePlace : source - moved + minimumMatch + (index - minimumMatch) =
        source - moved + index := by omega
    have positionPlace : position - moved + minimumMatch + (index - minimumMatch) =
        position - moved + index := by omega
    rw [sourcePlace, positionPlace] at shifted
    exact shifted.symm

/-- Whatever the table remembers, the sequences found stand for the data. -/
theorem sequencesFrom_stands {data : Array UInt8} {bound start position : Nat} {table : Table}
    (behind : start ≤ position) (inside : start ≤ data.size) :
    Stands data.toList start (sequencesFrom data bound table start position).sequences
      (sequencesFrom data bound table start position).last := by
  induction bound generalizing start position table with
  | zero =>
      rw [sequencesFrom, between_end]
      exact .last
  | succ bound ih =>
      rw [sequencesFrom]
      split
      · rw [between_end]
        exact .last
      · rename_i hit after found
        obtain ⟨reached, before, near, room, first⟩ := findHit_sound found
        have margin : startMargin = 12 := rfl
        have least : minimumMatch = 4 := rfl
        have far : farthest = 65535 := rfl
        obtain ⟨moved, back, small, floor, earlier⟩ :=
          extendBack_sound data (show start ≤ hit.position by omega) before
        obtain ⟨count, counted, limit, later⟩ := countAgreeing_sound
          (hit.source - moved + minimumMatch) 0
          (show hit.position - moved + minimumMatch ≤ data.size by omega)
        simp only [back, counted, Nat.zero_add, between_eq]
        have agrees := agrees_grown small before (by omega) earlier first later
        refine .sequence (by omega) ⟨?_, ?_, ?_⟩ agrees ?_
        · simp only []
          omega
        · simp only []
          omega
        · exact Nat.le_add_right _ _
        · rw [← Nat.add_assoc]
          exact ih (Nat.le_refl _) limit

theorem ofBytes_stands (bytes : Bytes) :
    Stands bytes 0 (Block.ofBytes bytes).sequences (Block.ofBytes bytes).last := by
  unfold Block.ofBytes
  dsimp only
  split
  · exact @Stands.last bytes 0
  · exact @sequencesFrom_stands bytes.toArray _ _ _ _ (by omega) (by omega)

/-- Compressed bytes expand to what they were made from. -/
theorem decompress_compress {bytes : Bytes} (short : bytes.length < Bytes.capacity 4) :
    decompress (compress bytes) = .ok bytes :=
  decompress_stands short (ofBytes_stands bytes)

end Columnar.Lz4
