import Columnar.Error
import Columnar.Proofs.Archive.Catalogs
import Columnar.Proofs.Errors
import Columnar.Proofs.Payload.Guarded

namespace Columnar.Catalog

/-!
Catalogs and byte strings correspond.

The bytes of a catalog are the words of its flat view, and a byte string that can be decoded is the
one that the catalog is encoded to.  `Guarded.decode` reads word by word from a cursor, where a read
past the end is `none`; that never happens.
-/

/-- The little-endian words of a byte string, as many as there are. -/
def words : Bytes → List UInt32
  | first :: second :: third :: fourth :: rest =>
      UInt32.ofNat (Bytes.toNat [first, second, third, fourth]) :: words rest
  | _ => []

theorem words_ofUInt32 (word : UInt32) (rest : Bytes) :
    words (Bytes.ofUInt32 word ++ rest) = word :: words rest := by
  have held : Bytes.toNat (Bytes.ofNat 4 word.toNat) = word.toNat :=
    Bytes.toNat_ofNat_of_lt word.toNat_lt
  simp only [Bytes.ofNat] at held
  simp only [Bytes.ofUInt32, Bytes.ofNat, List.cons_append, List.nil_append, words, held,
    UInt32.ofNat_toNat]

theorem words_flatMap (list : List UInt32) : words (list.flatMap Bytes.ofUInt32) = list := by
  induction list with
  | nil => rfl
  | cons word rest ih => rw [List.flatMap_cons, words_ofUInt32, ih]

theorem ofUInt32_toNat {bytes : Bytes} (width : bytes.length = 4) :
    Bytes.ofUInt32 (UInt32.ofNat (Bytes.toNat bytes)) = bytes := by
  have bound := Bytes.toNat_lt bytes
  rw [width, Bytes.capacity_four] at bound
  have whole := Bytes.ofNat_toNat bytes
  rw [width] at whole
  rw [Bytes.ofUInt32, UInt32.toNat_ofNat', Nat.mod_eq_of_lt bound, whole]

theorem split_two_words {bytes : Bytes} (enough : 8 ≤ bytes.length) :
    bytes = Bytes.ofUInt32 (UInt32.ofNat (Bytes.toNat (bytes.take 4))) ++
      (Bytes.ofUInt32 (UInt32.ofNat (Bytes.toNat ((bytes.drop 4).take 4))) ++ bytes.drop 8) := by
  have first : (bytes.take 4).length = 4 := by
    rw [List.length_take]
    omega
  have second : ((bytes.drop 4).take 4).length = 4 := by
    rw [List.length_take, List.length_drop]
    omega
  have behind : bytes.drop 8 = (bytes.drop 4).drop 4 := by simp
  rw [ofUInt32_toNat first, ofUInt32_toNat second, behind, List.take_append_drop,
    List.take_append_drop]

theorem entryBytes_readEntries {count : Nat} {bytes : Bytes} (width : bytes.length = count * 8) :
    (readEntries count bytes).length = count ∧ entryBytes (readEntries count bytes) = bytes := by
  induction count generalizing bytes with
  | zero => exact ⟨rfl, (List.length_eq_zero_iff.mp (by simpa using width)).symm⟩
  | succ count ih =>
      have shorter : (bytes.drop 8).length = count * 8 := by
        rw [List.length_drop]
        omega
      obtain ⟨length, later⟩ := ih shorter
      refine ⟨by rw [readEntries, List.length_cons, length], ?_⟩
      simp only [entryBytes] at later
      rw [readEntries, entryBytes, List.flatMap_cons, later, List.append_assoc]
      exact (split_two_words (by omega)).symm

/-- The bytes of a header, and of as many entries as it counts. -/
def Whole (bytes : Bytes) : Prop :=
  8 ≤ bytes.length ∧ bytes.length = 8 + 8 * Bytes.toNat (bytes.take 4)

theorem decode_of_whole {bytes : Bytes} (whole : Whole bytes) :
    decode bytes = .ok ⟨UInt32.ofNat (Bytes.toNat ((bytes.drop 4).take 4)),
      readEntries (Bytes.toNat (bytes.take 4)) (bytes.drop 8)⟩ := by
  obtain ⟨enough, length⟩ := whole
  have rest : (bytes.drop 8).length = Bytes.toNat (bytes.take 4) * 8 := by
    rw [List.length_drop]
    omega
  rw [decode, if_neg (by omega)]
  dsimp only
  rw [if_neg (by rw [rest]; simp)]

theorem decode_of_not_whole {bytes : Bytes} (broken : ¬ Whole bytes) :
    ∃ fault, decode bytes = .error fault := by
  rw [decode]
  split
  · exact ⟨_, rfl⟩
  · rename_i enough
    have differs : (bytes.drop 8).length ≠ Bytes.toNat (bytes.take 4) * 8 := by
      intro rest
      rw [List.length_drop] at rest
      exact broken ⟨by omega, by omega⟩
    dsimp only
    rw [if_pos differs]
    exact ⟨_, rfl⟩

theorem decode_isOk_iff {bytes : Bytes} :
    (∃ catalog, decode bytes = .ok catalog) ↔ Whole bytes := by
  constructor
  · rintro ⟨catalog, decoded⟩
    by_cases whole : Whole bytes
    · exact whole
    · obtain ⟨fault, refused⟩ := decode_of_not_whole whole
      rw [refused] at decoded
      contradiction
  · intro whole
    exact ⟨_, decode_of_whole whole⟩

theorem encode_of_decode {bytes : Bytes} {catalog : Catalog}
    (decoded : decode bytes = .ok catalog) : catalog.encode = bytes := by
  have whole := decode_isOk_iff.mp ⟨catalog, decoded⟩
  have enough := whole.1
  have rest : (bytes.drop 8).length = Bytes.toNat (bytes.take 4) * 8 := by
    have length := whole.2
    rw [List.length_drop]
    omega
  rw [decode_of_whole whole] at decoded
  cases decoded
  obtain ⟨count, entries⟩ := entryBytes_readEntries rest
  rw [encode_eq, count, entries]
  exact (split_two_words enough).symm

theorem toWords_of_decode {bytes : Bytes} {catalog : Catalog}
    (decoded : decode bytes = .ok catalog) : catalog.toWords = words bytes := by
  rw [← encode_of_decode decoded, encode, words_flatMap]

namespace Guarded

open Payload.Guarded (product? product?_eq addressable)

def readEntries : Nat → Bytes → Option (List CatalogEntry × Bytes)
  | 0, cursor => some ([], cursor)
  | count + 1, cursor => do
      let (typeTag, cursor) ← Bytes.takeNat? 4 cursor
      let (partCount, cursor) ← Bytes.takeNat? 4 cursor
      let (entries, cursor) ← readEntries count cursor
      return (⟨UInt32.ofNat typeTag, UInt32.ofNat partCount⟩ :: entries, cursor)

def decode (bytes : Bytes) : Option (Except CatalogFault Catalog) :=
  if bytes.length < 8 then some (.error (.shortHeader bytes.length))
  else do
    let (columns, cursor) ← Bytes.takeNat? 4 bytes
    let (chunks, cursor) ← Bytes.takeNat? 4 cursor
    let expected ← product? columns 8
    if cursor.length ≠ expected then
      return .error (.entryBytes columns expected cursor.length)
    else
      let (entries, _) ← readEntries columns cursor
      return .ok ⟨UInt32.ofNat chunks, entries⟩

theorem readEntries_eq {count : Nat} {bytes : Bytes} (width : bytes.length = count * 8) :
    readEntries count bytes = some (Catalog.readEntries count bytes, []) := by
  induction count generalizing bytes with
  | zero =>
      have empty : bytes = [] := List.length_eq_zero_iff.mp (by simpa using width)
      rw [empty]
      rfl
  | succ count ih =>
      have first := Bytes.takeNat?_of_le (show 4 ≤ bytes.length by omega)
      have second := Bytes.takeNat?_of_le (show 4 ≤ (bytes.drop 4).length by
        rw [List.length_drop]
        omega)
      have behind : (bytes.drop 4).drop 4 = bytes.drop 8 := by simp
      have shorter : (bytes.drop 8).length = count * 8 := by
        rw [List.length_drop]
        omega
      have later := ih shorter
      simp only [readEntries, first, second, behind, later, Option.bind_eq_bind, Option.bind_some]
      rfl

/-- No read leaves the bytes, and the size of the entries never overflows. -/
theorem decode_eq (bytes : Bytes) : decode bytes = some (Catalog.decode bytes) := by
  by_cases short : bytes.length < 8
  · simp only [decode, Catalog.decode, if_pos short]
  · have first := Bytes.takeNat?_of_le (show 4 ≤ bytes.length by omega)
    have second := Bytes.takeNat?_of_le (show 4 ≤ (bytes.drop 4).length by
      rw [List.length_drop]
      omega)
    have behind : (bytes.drop 4).drop 4 = bytes.drop 8 := by simp
    have few := (Bytes.takeNat?_eq_some_iff.mp first).2
    rw [Bytes.capacity_four] at few
    have expected : product? (Bytes.toNat (bytes.take 4)) 8 =
        some (Bytes.toNat (bytes.take 4) * 8) :=
      product?_eq (by simp only [addressable]; omega)
    simp only [decode, Catalog.decode, if_neg short, first, second, behind, expected,
      Option.bind_eq_bind, Option.bind_some]
    by_cases whole : (bytes.drop 8).length = Bytes.toNat (bytes.take 4) * 8
    · rw [if_neg (by omega), if_neg (by omega), readEntries_eq whole]
      rfl
    · rw [if_pos whole, if_pos whole]
      rfl

end Guarded

/-- Catalogs that a word can count the columns of are the byte strings that hold a header and as
many entries as it counts.  Every other byte string is refused, and none is read past its end. -/
theorem format_bijective (path : String) :
    (∀ catalog : Catalog, catalog.columnCount < UInt32.size →
      (decode catalog.encode).mapError (Error.malformedCatalog path) = .ok catalog) ∧
    ∀ bytes : Bytes,
      Guarded.decode bytes = some (decode bytes) ∧
      ((∃ catalog, (decode bytes).mapError (Error.malformedCatalog path) = .ok catalog) ↔
        Whole bytes) ∧
      (¬ Whole bytes → ∃ fault, (decode bytes).mapError (Error.malformedCatalog path) =
        .error (.malformedCatalog path fault)) ∧
      ∀ catalog, (decode bytes).mapError (Error.malformedCatalog path) = .ok catalog →
        catalog.encode = bytes ∧ catalog.toWords = words bytes := by
  have named {bytes : Bytes} {catalog : Catalog}
      (read : (decode bytes).mapError (Error.malformedCatalog path) = .ok catalog) :
      decode bytes = .ok catalog := by
    cases decoded : decode bytes with
    | error fault =>
        rw [decoded] at read
        contradiction
    | ok found =>
        rw [decoded] at read
        cases read
        rfl
  refine ⟨?_, fun bytes => ⟨Guarded.decode_eq bytes, ?_, ?_, ?_⟩⟩
  · intro catalog few
    have counted : catalog.entries.length ≤ maxWord := by
      simp only [columnCount, UInt32.size] at few
      simp only [maxWord]
      omega
    rw [decode_encode counted, mapError_ok]
  · rw [← decode_isOk_iff]
    constructor
    · rintro ⟨catalog, read⟩
      exact ⟨catalog, named read⟩
    · rintro ⟨catalog, decoded⟩
      exact ⟨catalog, by rw [decoded, mapError_ok]⟩
  · intro broken
    obtain ⟨fault, refused⟩ := decode_of_not_whole broken
    exact ⟨fault, by rw [refused, mapError_error]⟩
  · intro catalog read
    have decoded := named read
    exact ⟨encode_of_decode decoded, toWords_of_decode decoded⟩

theorem format_bijective_unknownTag :
    (decode (encode ⟨7, [⟨9, 1⟩, ⟨3, 0⟩]⟩)).mapError (Error.malformedCatalog "t/metadata") =
        .ok ⟨7, [⟨9, 1⟩, ⟨3, 0⟩]⟩ ∧
      ∃ fault, (decode [1, 0, 0, 0, 7, 0, 0, 0, 9, 0]).mapError
        (Error.malformedCatalog "t/metadata") = .error (.malformedCatalog "t/metadata" fault) := by
  obtain ⟨forth, back⟩ := format_bijective "t/metadata"
  obtain ⟨-, -, refused, -⟩ := back [1, 0, 0, 0, 7, 0, 0, 0, 9, 0]
  exact ⟨forth ⟨7, [⟨9, 1⟩, ⟨3, 0⟩]⟩ (by decide), refused (by unfold Whole; decide)⟩

end Columnar.Catalog
