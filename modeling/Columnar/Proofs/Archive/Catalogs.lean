import Columnar.Catalog
import Columnar.Options
import Columnar.Proofs.Bytes.Reading

namespace Columnar.Catalog

/-!
Catalogs are read back.
-/

theorem toNat_take_ofUInt32 (word : UInt32) (rest : Bytes) :
    Bytes.toNat ((Bytes.ofUInt32 word ++ rest).take 4) = word.toNat := by
  have front : (Bytes.ofUInt32 word ++ rest).take 4 = Bytes.ofUInt32 word := by
    rw [List.take_append_of_le_length (by simp [Bytes.ofUInt32])]
    exact List.take_of_length_le (by simp [Bytes.ofUInt32])
  rw [front, Bytes.ofUInt32, Bytes.toNat_ofNat_of_lt word.toNat_lt]

theorem drop_ofUInt32 (word : UInt32) (rest : Bytes) :
    (Bytes.ofUInt32 word ++ rest).drop 4 = rest := by
  have length : (Bytes.ofUInt32 word).length = 4 := Bytes.length_ofNat ..
  rw [← length, List.drop_left]

/-- The bytes of entries, a type tag and a part count each. -/
def entryBytes (entries : List CatalogEntry) : Bytes :=
  entries.flatMap fun entry => Bytes.ofUInt32 entry.typeTag ++ Bytes.ofUInt32 entry.partCount

theorem length_entryBytes (entries : List CatalogEntry) :
    (entryBytes entries).length = entries.length * 8 := by
  induction entries with
  | nil => rfl
  | cons entry rest ih =>
      simp only [entryBytes, List.flatMap_cons, List.length_append, Bytes.ofUInt32,
        Bytes.length_ofNat, List.length_cons] at ih ⊢
      omega

theorem encode_eq (catalog : Catalog) :
    catalog.encode = Bytes.ofUInt32 (UInt32.ofNat catalog.entries.length) ++
      (Bytes.ofUInt32 catalog.chunkCount ++ entryBytes catalog.entries) := by
  simp [encode, toWords, columnCount, entryBytes, List.flatMap_assoc]

theorem readEntries_entryBytes (entries : List CatalogEntry) :
    readEntries entries.length (entryBytes entries) = entries := by
  induction entries with
  | nil => rfl
  | cons entry rest ih =>
      have bytes : entryBytes (entry :: rest) = Bytes.ofUInt32 entry.typeTag ++
          (Bytes.ofUInt32 entry.partCount ++ entryBytes rest) := by
        simp [entryBytes]
      have behind (front : Bytes) : front.drop 8 = (front.drop 4).drop 4 := by simp
      rw [List.length_cons, readEntries, bytes, toNat_take_ofUInt32, behind, drop_ofUInt32,
        toNat_take_ofUInt32, drop_ofUInt32, ih, UInt32.ofNat_toNat, UInt32.ofNat_toNat]

theorem decode_encode {catalog : Catalog} (few : catalog.entries.length ≤ maxWord) :
    decode catalog.encode = .ok catalog := by
  have columns : (UInt32.ofNat catalog.entries.length).toNat = catalog.entries.length := by
    rw [UInt32.toNat_ofNat']
    simp only [maxWord] at few
    omega
  have behind (front : Bytes) : front.drop 8 = (front.drop 4).drop 4 := by simp
  have size := length_entryBytes catalog.entries
  have long : ¬ catalog.encode.length < 8 := by
    rw [encode_eq]
    simp only [List.length_append, Bytes.ofUInt32, Bytes.length_ofNat]
    omega
  rw [decode, if_neg long]
  dsimp only
  rw [encode_eq, toNat_take_ofUInt32, columns, behind, drop_ofUInt32, drop_ofUInt32,
    toNat_take_ofUInt32, if_neg (by rw [size]; simp), readEntries_entryBytes, UInt32.ofNat_toNat]

end Columnar.Catalog
