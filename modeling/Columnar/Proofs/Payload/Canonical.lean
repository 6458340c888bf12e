import Columnar.Proofs.Chunk.Choice
import Columnar.Proofs.Payload.Readings
import Columnar.Proofs.Text.Utf8
import Mathlib.Data.Set.List

namespace Columnar

/-!
String arrays are canonical.

The offsets of a string array begin at zero, never decrease, and end where the data ends.  So the
strings that they cut out are all of the data, one behind the other, and the lengths of the strings
give the offsets back: a string array is the one that is written for its strings.
-/

namespace StringArray

variable {data bytes : Bytes} {offsets : List Nat} {texts : List Bytes} {start last : Nat}

/-- What ascending offsets cut out joins to what lies between the first and the last of them, and
the totals of its lengths are the offsets. -/
theorem cut_ascending (ascending : (start :: offsets).Pairwise (· ≤ ·))
    (ends : (start :: offsets).getLast? = some last) (inside : last ≤ data.length) :
    start ≤ last ∧ (cut data (start :: offsets)).flatten = slice start last data ∧
      runningTotals start ((cut data (start :: offsets)).map (·.length)) = offsets := by
  induction offsets generalizing start with
  | nil =>
      cases ends
      exact ⟨Nat.le_refl _, by simp [cut, slice], rfl⟩
  | cons stop rest ih =>
      rw [List.getLast?_cons_cons] at ends
      have step : start ≤ stop := List.rel_of_pairwise_cons ascending List.mem_cons_self
      obtain ⟨reach, joined, totals⟩ := ih ascending.of_cons ends
      have width : (slice start stop data).length = stop - start :=
        length_slice start stop data (Nat.le_trans reach inside)
      have place : start + (stop - start) = stop := by omega
      refine ⟨Nat.le_trans step reach, ?_, ?_⟩
      · rw [cut, List.flatten_cons, joined, slice_append_slice data step reach]
      · rw [cut, List.map_cons, runningTotals, width, place, totals]

theorem Layout.encode_cut (layout : Layout offsets data bytes) :
    encode (cut data offsets) = bytes := by
  cases offsets with
  | nil => exact absurd layout.first (by simp)
  | cons first rest =>
      cases layout.first
      obtain ⟨-, joined, totals⟩ :=
        cut_ascending layout.ascending layout.last (Nat.le_refl data.length)
      rw [slice_zero_length] at joined
      rw [encode, joined, totals, ← layout.written]

theorem Holds.encode_eq (holds : Holds texts bytes) : encode texts = bytes := by
  obtain ⟨offsets, data, layout, rfl⟩ := holds
  exact layout.encode_cut

/-- The data of a string array is counted by a word. -/
theorem Holds.total_lt (holds : Holds texts bytes) :
    total (texts.map (·.length)) < Bytes.capacity 4 := by
  obtain ⟨offsets, data, layout, rfl⟩ := holds
  have written := layout.length_eq
  rw [← layout.encode_cut, length_encode, ← layout.length_offsets] at written
  have counted := layout.fits data.length (List.mem_of_getLast? layout.last)
  omega

end StringArray

namespace Payload

variable {count : Nat} {payload : Bytes} {decoded : Decoded} {texts : List String}

theorem holds_of_spells {rows : List Bytes} (spelled : Spells .uncompressed .string rows payload) :
    StringArray.Holds rows payload := by
  cases spelled with
  | slots numeric widths => contradiction
  | strings array => exact array

theorem lengthsFit_strings_iff :
    LengthsFit .uncompressed (.strings texts) ↔
      total ((texts.map Text.encode).map (·.length)) < Bytes.capacity 4 := by
  have lengths : (texts.map Text.encode).map (·.length) = texts.map (·.utf8ByteSize) := by
    rw [List.map_map]
    rfl
  rw [lengths, Bytes.capacity_four]
  constructor
  · intro fit
    exact Nat.lt_succ_of_le (fit.lengths _ List.mem_cons_self)
  · intro short
    exact lengthsFit_of_extent .uncompressed (Nat.le_of_lt_succ short)

/-- The only payload of plain strings that reads as given texts is the one that is written for
them. -/
theorem restores_strings_iff :
    Restores .uncompressed (.strings texts) payload ↔
      write .uncompressed (.strings texts) = .ok (some payload) := by
  rw [restores_iff_spells, write_eq_ok_iff, lengthsFit_strings_iff]
  constructor
  · intro spelled
    have holds := holds_of_spells spelled
    exact ⟨holds.total_lt, congrArg some holds.encode_eq.symm⟩
  · rintro ⟨short, same⟩
    cases same
    exact .strings (StringArray.holds_encode short)

/-- An accepted payload of plain strings reads as texts exactly when its rows are UTF-8.  Written
again, the texts give the payload back, and no other payload reads as them. -/
theorem strings_canonical (accepted : decode .uncompressed .string count payload = .ok decoded) :
    ∃ rows reader, rows.length = count ∧ Spells .uncompressed .string rows payload ∧
      RowReader.ofDecoded .string count decoded = .ok reader ∧
      ((∃ texts : List String, reader.readRows count = .ok (texts.map .string)) ↔
        ∀ bytes ∈ rows, Text.IsUtf8 bytes) ∧
      ∀ texts : List String, reader.readRows count = .ok (texts.map .string) →
        write .uncompressed (.strings texts) = .ok (some payload) ∧
        ∀ other, Restores .uncompressed (.strings texts) other → other = payload := by
  obtain ⟨rows, rfl, spelled⟩ := spells_of_decode accepted
  obtain ⟨reader, opened, reads⟩ := reads_of_decode accepted spelled
  refine ⟨rows, reader, rfl, spelled, opened, ⟨?_, ?_⟩, ?_⟩
  · rintro ⟨texts, read⟩ bytes member
    obtain ⟨length, serves⟩ := RowReader.readRows_eq_ok_iff.mp read
    obtain ⟨row, inside, rfl⟩ := List.getElem_of_mem member
    have value := reads row inside
    rw [serves row _ (List.getElem?_eq_getElem (by omega))] at value
    obtain ⟨text, decodedText, -⟩ := decode_of_rowValue value.symm
    exact Text.isUtf8_iff_decode.mpr ⟨text, decodedText⟩
  · intro utf8
    obtain ⟨texts, rfl⟩ : rows ∈ Set.range (List.map Text.encode) := by
      rw [Set.range_list_map]
      exact utf8
    rw [List.length_map] at accepted opened ⊢
    have restores : Restores .uncompressed (.strings texts) payload :=
      restores_iff_spells.mpr spelled
    obtain ⟨again, other, acceptedAgain, openedAgain, read⟩ := restores
    cases accepted.symm.trans acceptedAgain
    cases opened.symm.trans openedAgain
    exact ⟨texts, read⟩
  · intro texts read
    have length := (RowReader.readRows_eq_ok_iff.mp read).1
    rw [List.length_map] at length
    rw [← length] at accepted opened read
    have restores : Restores .uncompressed (.strings texts) payload :=
      ⟨decoded, reader, accepted, opened, read⟩
    refine ⟨restores_strings_iff.mp restores, fun other again => ?_⟩
    have written := (restores_strings_iff.mp again).symm.trans (restores_strings_iff.mp restores)
    cases written
    rfl

/-- Three texts, of two bytes, of none and of one, behind their four offsets. -/
def threeTexts : Bytes := [0, 0, 0, 0, 2, 0, 0, 0, 2, 0, 0, 0, 3, 0, 0, 0, 0xC3, 0xA9, 0x78]

theorem strings_canonical_threeTexts :
    write .uncompressed (.strings ["é", "", "x"]) = .ok (some threeTexts) ∧
      ∀ other, Restores .uncompressed (.strings ["é", "", "x"]) other → other = threeTexts := by
  obtain ⟨rows, reader, -, -, opened, -, again⟩ :=
    @strings_canonical 3 threeTexts ⟨threeTexts, false⟩ rfl
  cases opened
  exact again ["é", "", "x"] (by decide)

end Payload

end Columnar
