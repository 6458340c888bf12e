import Columnar.Proofs.Chunk.Choice

namespace Columnar

/-!
Every scheme restores what it has written, also where another one would have been chosen.

A scheme applies to values by their type, except that one value must be shared by all rows for the
scheme that writes only one.
-/

/-- Whether values can be written in a scheme. -/
def Scheme.Applies : Scheme → Values → Prop
  | .uncompressed, _ => True
  | .oneValue, values =>
      values.cells ≠ [] ∧ ∀ first ∈ values.cells, ∀ second ∈ values.cells, first = second
  | .runLength, values => values.type = .integer ∨ values.type = .double
  | .dictionary, values => values.type = .string

namespace RowReader

/-- The values of the first rows, in order. -/
def readRows (reader : RowReader) (count : Nat) : Except Corruption (List Cell) :=
  (List.range count).mapM reader.value

theorem mapM_value_range' {reader : RowReader} {cells : List Cell} {start : Nat}
    (reads : ∀ row cell, cells[row]? = some cell → reader.value (start + row) = .ok cell) :
    (List.range' start cells.length).mapM reader.value = .ok cells := by
  induction cells generalizing start with
  | nil => rfl
  | cons cell rest ih =>
      have first := reads 0 cell rfl
      rw [Nat.add_zero] at first
      have later := @ih (start + 1) fun row other found => by
        have next := reads (row + 1) other found
        rwa [Nat.add_comm row 1, ← Nat.add_assoc] at next
      rw [List.length_cons, List.range'_succ, List.mapM_cons, first, later]
      rfl

theorem readRows_of_serves {reader : RowReader} {cells : List Cell} (serves : reader.Serves cells) :
    reader.readRows cells.length = .ok cells := by
  rw [readRows, List.range_eq_range']
  refine mapM_value_range' fun row cell found => ?_
  rw [Nat.zero_add]
  exact serves row cell found

end RowReader

namespace Payload

theorem isSome_shared?_iff {α : Type} [DecidableEq α] {list : List α} :
    (shared? list).isSome ↔ list ≠ [] ∧ ∀ first ∈ list, ∀ second ∈ list, first = second := by
  constructor
  · intro found
    obtain ⟨value, shared⟩ := Option.isSome_iff_exists.mp found
    have same := shared?_eq_some shared
    refine ⟨fun none => ?_, fun first inside second among => ?_⟩
    · rw [none] at shared
      contradiction
    · rw [same] at inside among
      rw [List.eq_of_mem_replicate inside, List.eq_of_mem_replicate among]
  · rintro ⟨some, same⟩
    cases list with
    | nil => exact absurd rfl some
    | cons first rest =>
        have all : (rest.all fun entry => entry = first) = true := by
          refine List.all_eq_true.mpr fun entry member => decide_eq_true ?_
          exact same entry (List.mem_cons_of_mem first member) first List.mem_cons_self
        rw [shared?, if_pos all]
        rfl

theorem alike_map_iff {α β : Type} {image : α → β} (distinct : Function.Injective image)
    {list : List α} :
    (list.map image ≠ [] ∧ ∀ first ∈ list.map image, ∀ second ∈ list.map image, first = second) ↔
      list ≠ [] ∧ ∀ first ∈ list, ∀ second ∈ list, first = second := by
  constructor
  · rintro ⟨some, same⟩
    refine ⟨fun none => some (by rw [none]; rfl), fun first inside second among => distinct ?_⟩
    exact same _ (List.mem_map_of_mem inside) _ (List.mem_map_of_mem among)
  · rintro ⟨some, same⟩
    refine ⟨fun none => some (List.map_eq_nil_iff.mp none), ?_⟩
    intro first inside second among
    obtain ⟨left, held, rfl⟩ := List.mem_map.mp inside
    obtain ⟨right, kept, rfl⟩ := List.mem_map.mp among
    exact congrArg image (same left held right kept)

theorem isSome_encode_iff (scheme : Scheme) (values : Values) :
    (encode scheme values).isSome ↔ scheme.Applies values := by
  cases scheme with
  | uncompressed => cases values <;> exact ⟨fun _ => trivial, fun _ => rfl⟩
  | oneValue =>
      cases values with
      | integers list =>
          have distinct : Function.Injective Cell.integer := fun _ _ => Cell.integer.inj
          simp only [encode, Option.isSome_map, isSome_shared?_iff, Scheme.Applies, Values.cells,
            alike_map_iff distinct]
      | doubles list =>
          have distinct : Function.Injective Cell.double := fun _ _ => Cell.double.inj
          simp only [encode, Option.isSome_map, isSome_shared?_iff, Scheme.Applies, Values.cells,
            alike_map_iff distinct]
      | strings list =>
          have distinct : Function.Injective Cell.string := fun _ _ => Cell.string.inj
          simp only [encode, Option.isSome_map, isSome_shared?_iff, Scheme.Applies, Values.cells,
            alike_map_iff distinct]
  | runLength => cases values <;> simp [encode, Scheme.Applies, Values.type]
  | dictionary => cases values <;> simp [encode, Scheme.Applies, Values.type]

/-- Values whose data words can count are never refused: a scheme gives a payload for those that it
applies to, and none for others. -/
theorem write_of_short {values : Values} (scheme : Scheme) (short : values.dataBytes ≤ maxWord) :
    write scheme values = .ok (encode scheme values) :=
  write_eq_ok_iff.mpr
    ⟨lengthsFit_of_extent scheme (Nat.le_trans values.extent_le_dataBytes short), rfl⟩

/-- A scheme writes exactly the values that it applies to, and what it has written is decoded to
rows that read as those values. -/
theorem written_values_restored (scheme : Scheme) (values : Values)
    (short : values.dataBytes ≤ maxWord) :
    ((∃ payload, write scheme values = .ok (some payload)) ↔ scheme.Applies values) ∧
      (write scheme values = .ok none ↔ ¬ scheme.Applies values) ∧
      ∀ payload, write scheme values = .ok (some payload) →
        ∃ decoded reader, decode scheme values.type values.length payload = .ok decoded ∧
          RowReader.ofDecoded values.type values.length decoded = .ok reader ∧
          reader.readRows values.length = .ok values.cells := by
  rw [write_of_short scheme short, ← isSome_encode_iff]
  simp only [Except.ok.injEq, Option.isSome_iff_exists, true_and]
  refine ⟨?_, fun payload encoded => ?_⟩
  · rw [← Option.isSome_iff_exists, Option.not_isSome_iff_eq_none]
  · obtain ⟨decoded, reader, accepted, opened, serves⟩ := decode_encode encoded short
    refine ⟨decoded, reader, accepted, opened, ?_⟩
    rw [← values.length_cells]
    exact RowReader.readRows_of_serves serves

/-- A dictionary of texts with an empty one among them and one of them twice. -/
theorem written_values_restored_repeatedText :
    ∃ payload decoded reader,
      write .dictionary (.strings ["é", "", "é", "null"]) = .ok (some payload) ∧
      decode .dictionary .string 4 payload = .ok decoded ∧
      RowReader.ofDecoded .string 4 decoded = .ok reader ∧
      reader.readRows 4 = .ok [.string "é", .string "", .string "é", .string "null"] := by
  obtain ⟨applies, -, restores⟩ :=
    written_values_restored .dictionary (.strings ["é", "", "é", "null"]) (by decide)
  obtain ⟨payload, written⟩ := applies.mpr rfl
  obtain ⟨decoded, reader, accepted, opened, read⟩ := restores payload written
  exact ⟨payload, decoded, reader, written, accepted, opened, read⟩

end Payload

end Columnar
