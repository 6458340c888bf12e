import Columnar.Proofs.Payload.Guarded

namespace Columnar.Payload

/-!
What decoding accepts, and what its result reads as.

The schemes that a type can be written in are those for which the encoder gives a payload.  Among
their payloads decoding accepts those of the grammar, for as many rows as the grammar spells.
-/

/-- A scheme that some values of a type can be written in. -/
def Writable (scheme : Scheme) (type : ColumnType) : Prop :=
  ∃ values : Values, values.type = type ∧ (encode scheme values).isSome

theorem Spells.writable {scheme : Scheme} {type : ColumnType} {rows : List Bytes} {payload : Bytes}
    (spelled : Spells scheme type rows payload) : Writable scheme type := by
  have slots : ∀ scheme ∈ [Scheme.uncompressed, .oneValue, .runLength],
      ∀ type width, slotWidth? type = some width → Writable scheme type := by
    intro scheme member type width numeric
    simp only [List.mem_cons, List.not_mem_nil, or_false] at member
    cases type with
    | integer => exact ⟨.integers [0], rfl, by rcases member with rfl | rfl | rfl <;> rfl⟩
    | double => exact ⟨.doubles [.zero], rfl, by rcases member with rfl | rfl | rfl <;> rfl⟩
    | string => contradiction
    | skip => contradiction
  cases spelled with
  | slots numeric => exact slots _ (by simp) _ _ numeric
  | oneSlot count numeric => exact slots _ (by simp) _ _ numeric
  | runs numeric => exact slots _ (by simp) _ _ numeric
  | strings array => exact ⟨.strings [""], rfl, rfl⟩
  | oneString count short => exact ⟨.strings [""], rfl, rfl⟩
  | dictionary holds few known => exact ⟨.strings [""], rfl, rfl⟩

/-- Decoding any bytes for any 32-bit number of rows touches nothing outside its buffers, whatever
the output held.  It accepts the payloads of the grammar, whose rows it reproduces, and reports
every other one as corrupt. -/
theorem decode_accepts_exactly_spelled (scheme : Scheme) (type : ColumnType) (count : UInt32)
    (payload prior : Bytes) :
    Guarded.decode scheme type count.toNat payload prior =
        some (decode scheme type count.toNat payload) ∧
      ((∃ decoded, decode scheme type count.toNat payload = .ok decoded) ↔
        Writable scheme type ∧
          ∃ rows, rows.length = count.toNat ∧ Spells scheme type rows payload) ∧
      ((∃ cause : Corruption, decode scheme type count.toNat payload = .error cause) ↔
        ¬ ∃ rows, rows.length = count.toNat ∧ Spells scheme type rows payload) ∧
      ∀ decoded rows, decode scheme type count.toNat payload = .ok decoded →
        rows.length = count.toNat → Spells scheme type rows payload → Reads type rows decoded := by
  have small : count.toNat ≤ maxWord := by
    have bound := count.toNat_lt
    simp only [maxWord]
    omega
  have spelled_decodes : ∀ rows, rows.length = count.toNat → Spells scheme type rows payload →
      ∃ decoded, decode scheme type count.toNat payload = .ok decoded ∧
        Reads type rows decoded := by
    intro rows size spelled
    rw [← size]
    exact spelled.decode
  refine ⟨Guarded.decode_eq scheme type payload prior small, ⟨?_, ?_⟩, ⟨?_, ?_⟩, ?_⟩
  · rintro ⟨decoded, accepted⟩
    obtain ⟨rows, size, spelled⟩ := spells_of_decode accepted
    exact ⟨spelled.writable, rows, size, spelled⟩
  · rintro ⟨-, rows, size, spelled⟩
    obtain ⟨decoded, accepted, -⟩ := spelled_decodes rows size spelled
    exact ⟨decoded, accepted⟩
  · rintro ⟨cause, refused⟩ ⟨rows, size, spelled⟩
    obtain ⟨decoded, accepted, -⟩ := spelled_decodes rows size spelled
    rw [refused] at accepted
    contradiction
  · intro unspelled
    cases result : decode scheme type count.toNat payload with
    | error cause => exact ⟨cause, rfl⟩
    | ok decoded => exact absurd (spells_of_decode result) unspelled
  · intro decoded rows accepted size spelled
    exact reads_of_decode (by rw [size]; exact accepted) spelled

end Columnar.Payload
