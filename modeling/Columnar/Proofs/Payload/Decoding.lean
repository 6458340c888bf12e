import Columnar.Proofs.Payload.Layout

namespace Columnar

namespace Bytes

/-- A number was split off exactly when its bytes stand in front. -/
theorem takeNat?_eq_some_iff {width value : Nat} {bytes rest : Bytes} :
    takeNat? width bytes = some (value, rest) ↔
      bytes = ofNat width value ++ rest ∧ value < capacity width := by
  constructor
  · intro taken
    simp only [takeNat?] at taken
    split at taken
    · rename_i whole
      simp only [Option.some.injEq, Prod.mk.injEq] at taken
      obtain ⟨rfl, rfl⟩ := taken
      have written := ofNat_toNat (bytes.take width)
      have bound := toNat_lt (bytes.take width)
      rw [whole] at written bound
      exact ⟨by rw [written, List.take_append_drop], bound⟩
    · contradiction
  · rintro ⟨rfl, fits⟩
    exact takeNat?_ofNat_append fits rest

theorem takeNat?_of_le {width : Nat} {bytes : Bytes} (enough : width ≤ bytes.length) :
    takeNat? width bytes = some (toNat (bytes.take width), bytes.drop width) := by
  simp only [takeNat?, List.length_take, Nat.min_eq_left enough, if_true]

theorem takeNat?_eq_none {width : Nat} {bytes : Bytes} (short : bytes.length < width) :
    takeNat? width bytes = none := by
  simp only [takeNat?, List.length_take]
  rw [if_neg (by omega)]

end Bytes

namespace Payload

/-!
Decoding accepts the grammar and nothing else.

For each scheme, a payload that the grammar allows decodes into a buffer whose rows read as the
grammar's rows, and a payload that decodes is one that the grammar allows.
-/

section Slots

variable {type : ColumnType} {width count : Nat} {rows : List Bytes} {payload : Bytes}
  {decoded : Decoded}

/-- The first `count` pieces of a byte string, all of one width. -/
def pieces (width : Nat) : Nat → Bytes → List Bytes
  | 0, _ => []
  | count + 1, bytes => bytes.take width :: pieces width count (bytes.drop width)

theorem length_pieces (width count : Nat) (bytes : Bytes) :
    (pieces width count bytes).length = count := by
  induction count generalizing bytes with
  | zero => rfl
  | succ count ih => simp [pieces, ih]

theorem flatten_pieces {bytes : Bytes} (whole : bytes.length = count * width) :
    (pieces width count bytes).flatten = bytes ∧
      ∀ piece ∈ pieces width count bytes, piece.length = width := by
  induction count generalizing bytes with
  | zero =>
      have empty : bytes = [] := List.eq_nil_of_length_eq_zero (by simpa using whole)
      subst empty
      simp [pieces]
  | succ count ih =>
      rw [Nat.add_mul, Nat.one_mul] at whole
      obtain ⟨joined, widths⟩ := @ih (bytes.drop width) (by
        simp only [List.length_drop]
        omega)
      refine ⟨by rw [pieces, List.flatten_cons, joined, List.take_append_drop], ?_⟩
      intro piece member
      rcases List.mem_cons.mp member with rfl | later
      · simp only [List.length_take]
        omega
      · exact widths piece later

theorem decodeSlots_flatten (widths : ∀ slot ∈ rows, slot.length = width) :
    decodeSlots width rows.length rows.flatten = .ok ⟨rows.flatten, false⟩ := by
  simp only [decodeSlots, length_flatten_of_widths widths, if_true]

theorem spells_of_decodeSlots (numeric : slotWidth? type = some width)
    (accepted : decodeSlots width count payload = .ok decoded) :
    ∃ rows, rows.length = count ∧ Spells .uncompressed type rows payload := by
  simp only [decodeSlots] at accepted
  split at accepted
  · rename_i whole
    obtain ⟨joined, widths⟩ := flatten_pieces whole
    refine ⟨pieces width count payload, length_pieces .., ?_⟩
    have spelled := Spells.slots numeric widths
    rwa [joined] at spelled
  · contradiction

theorem decodeOneSlot_replicate (count : Nat) (slot : Bytes) :
    decodeOneSlot slot.length count slot = .ok ⟨(List.replicate count slot).flatten, false⟩ := by
  simp only [decodeOneSlot, if_true]

theorem spells_of_decodeOneSlot (numeric : slotWidth? type = some width)
    (accepted : decodeOneSlot width count payload = .ok decoded) :
    ∃ rows, rows.length = count ∧ Spells .oneValue type rows payload := by
  simp only [decodeOneSlot] at accepted
  split at accepted
  · rename_i whole
    exact ⟨_, List.length_replicate, .oneSlot count (by rw [numeric, whole])⟩
  · contradiction

end Slots

section Runs

variable {type : ColumnType} {width count : Nat} {runs : List Run} {payload : Bytes}
  {decoded : Decoded}

theorem splitRuns_written (widths : ∀ run ∈ runs, run.slot.length = width)
    (counts : ∀ run ∈ runs, run.count < Bytes.capacity 4) :
    splitRuns width runs.length (runs.flatMap Run.written) = runs := by
  induction runs with
  | nil => rfl
  | cons run rest ih =>
      have slot := widths run (by simp)
      have others := ih (fun run member => widths run (by simp [member]))
        (fun run member => counts run (by simp [member]))
      have counted : (Bytes.ofNat 4 run.count).take 4 = Bytes.ofNat 4 run.count :=
        List.take_of_length_le (by simp)
      have passed : (run.written ++ rest.flatMap Run.written).drop (width + 4) =
          rest.flatMap Run.written := by
        have written : run.written.length = width + 4 := by simp [Run.written, slot]
        rw [← written, List.drop_left]
      have front : (run.written ++ rest.flatMap Run.written).take width = run.slot := by
        rw [Run.written, List.append_assoc, ← slot, List.take_left]
      have behind : ((run.written ++ rest.flatMap Run.written).drop width).take 4 =
          Bytes.ofNat 4 run.count := by
        rw [Run.written, List.append_assoc, ← slot, List.drop_left,
          List.take_append_of_le_length (by simp), counted]
      rw [List.flatMap_cons, List.length_cons, splitRuns, passed, others, front, behind,
        Bytes.toNat_ofNat_of_lt (counts run (by simp))]

theorem length_splitRuns (width count : Nat) (bytes : Bytes) :
    (splitRuns width count bytes).length = count := by
  induction count generalizing bytes with
  | zero => rfl
  | succ count ih => simp [splitRuns, ih]

theorem written_splitRuns {bytes : Bytes} (whole : bytes.length = count * (width + 4)) :
    (splitRuns width count bytes).flatMap Run.written = bytes ∧
      ∀ run ∈ splitRuns width count bytes,
        run.slot.length = width ∧ run.count < Bytes.capacity 4 := by
  induction count generalizing bytes with
  | zero =>
      have empty : bytes = [] := List.eq_nil_of_length_eq_zero (by simpa using whole)
      subst empty
      simp [splitRuns]
  | succ count ih =>
      rw [Nat.add_mul, Nat.one_mul] at whole
      obtain ⟨joined, shapes⟩ := @ih (bytes.drop (width + 4)) (by
        simp only [List.length_drop]
        omega)
      have counted : ((bytes.drop width).take 4).length = 4 := by
        simp only [List.length_take, List.length_drop]
        omega
      have rewritten := Bytes.ofNat_toNat ((bytes.drop width).take 4)
      have bound := Bytes.toNat_lt ((bytes.drop width).take 4)
      rw [counted] at rewritten bound
      constructor
      · rw [splitRuns, List.flatMap_cons, joined, Run.written, rewritten, ← List.take_add,
          List.take_append_drop]
      · intro run member
        rcases List.mem_cons.mp member with rfl | later
        · refine ⟨?_, bound⟩
          simp only [List.length_take]
          omega
        · exact shapes run later

theorem length_rows (runs : List Run) :
    (runs.flatMap Run.rows).length = total (runs.map (·.count)) := by
  induction runs with
  | nil => rfl
  | cons run rest ih => simp [ih, Run.rows]

theorem flatten_rows (runs : List Run) :
    (runs.flatMap Run.rows).flatten = runs.flatMap Run.expand := by
  induction runs with
  | nil => rfl
  | cons run rest ih =>
      rw [List.flatMap_cons, List.flatten_append, ih, List.flatMap_cons]
      rfl

theorem length_written (widths : ∀ run ∈ runs, run.slot.length = width) :
    (runs.flatMap Run.written).length = runs.length * (width + 4) := by
  have shapes : ∀ part ∈ runs.map Run.written, part.length = width + 4 := by
    intro part member
    obtain ⟨run, found, rfl⟩ := List.mem_map.mp member
    simp [Run.written, widths run found]
  rw [List.flatMap_def, length_flatten_of_widths shapes, List.length_map]

theorem decodeRuns_written (widths : ∀ run ∈ runs, run.slot.length = width)
    (counts : ∀ run ∈ runs, run.count < Bytes.capacity 4) (few : runs.length < Bytes.capacity 4) :
    decodeRuns width (runs.flatMap Run.rows).length
        (Bytes.ofNat 4 runs.length ++ runs.flatMap Run.written) =
      .ok ⟨(runs.flatMap Run.rows).flatten, false⟩ := by
  simp only [decodeRuns, Bytes.takeNat?_ofNat_append few, length_written widths, ne_eq,
    not_true_eq_false, if_false, splitRuns_written widths counts, length_rows, Nat.lt_irrefl,
    flatten_rows]

theorem spells_of_decodeRuns (numeric : slotWidth? type = some width)
    (accepted : decodeRuns width count payload = .ok decoded) :
    ∃ rows, rows.length = count ∧ Spells .runLength type rows payload := by
  simp only [decodeRuns] at accepted
  split at accepted
  · contradiction
  rename_i number rest taken
  split at accepted
  · contradiction
  rename_i whole
  rw [ne_eq, Decidable.not_not] at whole
  split at accepted
  · contradiction
  split at accepted
  · contradiction
  rename_i covered
  rw [ne_eq, Decidable.not_not] at covered
  obtain ⟨rfl, few⟩ := Bytes.takeNat?_eq_some_iff.mp taken
  obtain ⟨joined, shapes⟩ := written_splitRuns whole
  refine ⟨(splitRuns width number rest).flatMap Run.rows, by rw [length_rows, covered], ?_⟩
  have spelled := Spells.runs numeric (fun run member => (shapes run member).1)
    (fun run member => (shapes run member).2) (by rwa [length_splitRuns])
  rwa [joined, length_splitRuns] at spelled

end Runs

section Strings

variable {count : Nat} {payload : Bytes} {decoded : Decoded}

theorem slice_whole (text : Bytes) : slice 0 (0 + text.length) text = text := by
  rw [Nat.zero_add, slice_zero_length]

theorem decodeOneString_length (count : Nat) {text : Bytes}
    (short : text.length < Bytes.capacity 4) :
    decodeOneString count (Bytes.ofNat 4 text.length ++ text) =
      .ok ⟨(List.replicate count (pointer 0 text.length)).flatten ++ text, true⟩ := by
  simp only [decodeOneString, Bytes.takeNat?_ofNat_append short, ne_eq, not_true_eq_false, if_false]

theorem reads_oneString (count : Nat) {text : Bytes} (short : text.length < Bytes.capacity 4) :
    Reads .string (List.replicate count text)
      ⟨(List.replicate count (pointer 0 text.length)).flatten ++ text, true⟩ := by
  have within : ∀ span ∈ List.replicate count (Span.mk 0 text.length), span.Within text := by
    intro span member
    rw [List.eq_of_mem_replicate member]
    exact ⟨Nat.le_of_eq (Nat.zero_add _), show 0 < Bytes.capacity 4 by decide, short⟩
  have reads := reads_pointers within
  simp only [List.map_replicate, Span.text, slice_whole, Span.pointer] at reads
  exact reads

theorem spells_of_decodeOneString (accepted : decodeOneString count payload = .ok decoded) :
    ∃ rows, rows.length = count ∧ Spells .oneValue .string rows payload := by
  simp only [decodeOneString] at accepted
  split at accepted
  · contradiction
  rename_i declared text taken
  split at accepted
  · contradiction
  rename_i whole
  rw [ne_eq, Decidable.not_not] at whole
  obtain ⟨rfl, short⟩ := Bytes.takeNat?_eq_some_iff.mp taken
  subst whole
  exact ⟨_, List.length_replicate, .oneString count short⟩

end Strings

section Dictionaries

variable {count : Nat} {payload : Bytes} {decoded : Decoded}

/-- Where the entry of a number lies. -/
def entrySpan (offsets : Array Nat) (code : Nat) : Span :=
  let start := offsets[code]?.getD 0
  ⟨start, offsets[code + 1]?.getD 0 - start⟩

/-- Row numbers become pointers when all of them name entries, and only then. -/
theorem pointersOf_iff (offsets : Array Nat) (entries row : Nat) (codes : List Nat)
    (pointers : List Bytes) :
    pointersOf offsets entries row codes = .ok pointers ↔
      (∀ code ∈ codes, code < entries) ∧
        pointers = codes.map fun code => (entrySpan offsets code).pointer := by
  induction codes generalizing row pointers with
  | nil =>
      simp only [pointersOf, Except.ok.injEq, List.not_mem_nil, false_implies, implies_true,
        true_and, List.map_nil]
      exact eq_comm
  | cons code rest ih =>
      rw [pointersOf]
      by_cases known : entries ≤ code
      · rw [if_pos known]
        simp only [reduceCtorEq, List.mem_cons, forall_eq_or_imp, Nat.not_lt.mpr known, false_and]
      · rw [if_neg known]
        cases rest' : pointersOf offsets entries (row + 1) rest with
        | error cause =>
            have refused : ¬ ∀ code ∈ rest, code < entries := by
              intro all
              have accepted := (ih (row + 1) _).mpr ⟨all, rfl⟩
              rw [rest'] at accepted
              contradiction
            simp only [reduceCtorEq, List.mem_cons, forall_eq_or_imp, refused, and_false, false_and]
        | ok others =>
            obtain ⟨all, shape⟩ := (ih (row + 1) others).mp rest'
            simp only [Except.ok.injEq, List.mem_cons, forall_eq_or_imp, Nat.not_le.mp known,
              List.map_cons, true_and, ← shape]
            exact ⟨fun same => ⟨all, same.symm⟩, fun same => same.2.symm⟩

theorem entrySpan_within {offsets : List Nat} {data array : Bytes} {code : Nat}
    (layout : StringArray.Layout offsets data array)
    (known : code < (StringArray.cut data offsets).length) :
    (entrySpan offsets.toArray code).Within data ∧
      (entrySpan offsets.toArray code).text data = (StringArray.cut data offsets)[code] := by
  have size := layout.length_offsets
  have inside : code + 1 < offsets.length := by omega
  have first : offsets.toArray[code]?.getD 0 = offsets[code] := by
    simp [List.getElem?_eq_getElem (by omega : code < offsets.length)]
  have second : offsets.toArray[code + 1]?.getD 0 = offsets[code + 1] := by
    simp [List.getElem?_eq_getElem inside]
  have ordered := layout.step inside
  have reach := layout.le_data inside
  have bound := layout.fits _ (List.getElem_mem inside)
  have same : entrySpan offsets.toArray code =
      ⟨offsets[code], offsets[code + 1] - offsets[code]⟩ := by
    simp only [entrySpan, first, second]
  have stop : offsets[code] + (offsets[code + 1] - offsets[code]) = offsets[code + 1] := by omega
  rw [same, StringArray.getElem_cut inside]
  refine ⟨⟨by dsimp only; omega, by dsimp only; omega, by dsimp only; omega⟩, ?_⟩
  simp only [Span.text, stop]

theorem decodeDictionary_parts {entries : List Bytes} {array data : Bytes}
    {offsets codes : List Nat} (layout : StringArray.Layout offsets data array)
    (cuts : entries = StringArray.cut data offsets)
    (few : entries.length < Bytes.capacity 4) (known : ∀ code ∈ codes, code < entries.length) :
    decodeDictionary codes.length
        (Bytes.ofNat 4 entries.length ++ array ++ codes.flatMap (Bytes.ofNat 4)) =
      .ok ⟨((codes.map (entrySpan offsets.toArray)).map Span.pointer).flatten ++ data, true⟩ := by
  have words := StringArray.length_flatMap_words codes
  have available : (array ++ codes.flatMap (Bytes.ofNat 4)).length - codes.length * 4 =
      array.length := by
    rw [List.length_append, words, Nat.add_sub_cancel]
  have enough : ¬ (array ++ codes.flatMap (Bytes.ofNat 4)).length < codes.length * 4 := by
    rw [List.length_append, words]
    omega
  have fits : ∀ code ∈ codes, code < Bytes.capacity 4 := fun code member =>
    Nat.lt_trans (known code member) few
  have read : StringArray.words codes.length (codes.flatMap (Bytes.ofNat 4)) = codes := by
    have whole := StringArray.words_flatMap [] fits
    rwa [List.append_nil] at whole
  have decodedArray : StringArray.decode entries.length array = .ok (offsets, data) :=
    layout.decode (by rw [cuts, layout.length_offsets])
  have pointers := (pointersOf_iff offsets.toArray entries.length 0 codes _).mpr ⟨known, rfl⟩
  simp only [decodeDictionary, List.append_assoc, Bytes.takeNat?_ofNat_append few, enough, if_false,
    available, List.take_left, List.drop_left, decodedArray, read, pointers, List.map_map]
  rfl

theorem reads_dictionary {entries : List Bytes} {array data : Bytes} {offsets codes : List Nat}
    (layout : StringArray.Layout offsets data array)
    (cuts : entries = StringArray.cut data offsets)
    (known : ∀ code ∈ codes, code < entries.length) :
    Reads .string (codes.map fun code => entries.getD code [])
      ⟨((codes.map (entrySpan offsets.toArray)).map Span.pointer).flatten ++ data, true⟩ := by
  subst cuts
  have within : ∀ span ∈ codes.map (entrySpan offsets.toArray), span.Within data := by
    intro span member
    obtain ⟨code, found, rfl⟩ := List.mem_map.mp member
    exact (entrySpan_within layout (known code found)).1
  have texts : (codes.map (entrySpan offsets.toArray)).map (Span.text data) =
      codes.map fun code => (StringArray.cut data offsets).getD code [] := by
    rw [List.map_map]
    refine List.map_congr_left fun code found => ?_
    have inside := known code found
    rw [List.getD_eq_getElem?_getD, List.getElem?_eq_getElem inside, Option.getD_some]
    exact (entrySpan_within layout inside).2
  rw [← texts]
  exact reads_pointers within

theorem spells_of_decodeDictionary (accepted : decodeDictionary count payload = .ok decoded) :
    ∃ rows, rows.length = count ∧ Spells .dictionary .string rows payload := by
  simp only [decodeDictionary] at accepted
  split at accepted
  · contradiction
  rename_i entries rest taken
  split at accepted
  · contradiction
  rename_i enough
  split at accepted
  · contradiction
  rename_i offsets data arrayDecoded
  split at accepted
  · contradiction
  rename_i pointers found
  obtain ⟨rfl, few⟩ := Bytes.takeNat?_eq_some_iff.mp taken
  obtain ⟨layout, size⟩ := StringArray.layout_of_decode arrayDecoded
  have held : (StringArray.cut data offsets).length = entries := by
    rw [StringArray.length_cut, size, Nat.add_sub_cancel]
  obtain ⟨known, -⟩ := (pointersOf_iff ..).mp found
  rw [← held] at few known
  have spelled := Spells.dictionary ⟨offsets, data, layout, rfl⟩ few known
  have codesLength : (rest.drop (rest.length - count * 4)).length = count * 4 := by
    rw [List.length_drop]
    omega
  have rewritten : (StringArray.words count (rest.drop (rest.length - count * 4))).flatMap
      (Bytes.ofNat 4) = rest.drop (rest.length - count * 4) := by
    rw [StringArray.flatMap_words (Nat.le_of_eq codesLength.symm),
      List.take_of_length_le (Nat.le_of_eq codesLength)]
  rw [rewritten, held, List.append_assoc, List.take_append_drop] at spelled
  exact ⟨_, by rw [List.length_map, StringArray.length_words], spelled⟩

end Dictionaries

/-- A payload that the grammar allows decodes, and its rows read as spelled. -/
theorem Spells.decode {scheme : Scheme} {type : ColumnType} {rows : List Bytes} {payload : Bytes}
    (spelled : Spells scheme type rows payload) :
    ∃ decoded, decode scheme type rows.length payload = .ok decoded ∧ Reads type rows decoded := by
  cases spelled with
  | slots numeric widths =>
      refine ⟨⟨rows.flatten, false⟩, ?_, reads_slots numeric widths⟩
      cases type with
      | integer => cases numeric; exact decodeSlots_flatten widths
      | double => cases numeric; exact decodeSlots_flatten widths
      | string => contradiction
      | skip => contradiction
  | oneSlot count numeric =>
      have widths : ∀ slot ∈ List.replicate count payload, slot.length = payload.length :=
        fun slot member => by rw [List.eq_of_mem_replicate member]
      refine ⟨⟨(List.replicate count payload).flatten, false⟩, ?_, reads_slots numeric widths⟩
      have single := decodeOneSlot_replicate count payload
      rw [List.length_replicate]
      cases type with
      | integer => rwa [← Option.some.inj numeric] at single
      | double => rwa [← Option.some.inj numeric] at single
      | string => contradiction
      | skip => contradiction
  | strings array =>
      obtain ⟨offsets, data, layout, rfl⟩ := array
      refine ⟨⟨payload, false⟩, ?_, reads_stringArray layout⟩
      simp only [Payload.decode, layout.decode layout.length_offsets]
  | @oneString text count short =>
      refine ⟨_, ?_, reads_oneString count short⟩
      rw [List.length_replicate]
      exact decodeOneString_length count short
  | @runs _ width runs numeric widths counts few =>
      have slots : ∀ slot ∈ runs.flatMap Run.rows, slot.length = width := by
        intro slot member
        obtain ⟨run, found, here⟩ := List.mem_flatMap.mp member
        rw [List.eq_of_mem_replicate here]
        exact widths run found
      refine ⟨_, ?_, reads_slots numeric slots⟩
      have written := decodeRuns_written widths counts few
      cases type with
      | integer => cases numeric; exact written
      | double => cases numeric; exact written
      | string => contradiction
      | skip => contradiction
  | @dictionary entries array codes holds few known =>
      obtain ⟨offsets, data, layout, cuts⟩ := holds
      refine ⟨_, ?_, reads_dictionary layout cuts known⟩
      rw [List.length_map]
      exact decodeDictionary_parts layout cuts few known

/-- A payload that decodes is one that the grammar allows. -/
theorem spells_of_decode {scheme : Scheme} {type : ColumnType} {count : Nat} {payload : Bytes}
    {decoded : Decoded} (accepted : decode scheme type count payload = .ok decoded) :
    ∃ rows, rows.length = count ∧ Spells scheme type rows payload := by
  cases scheme with
  | uncompressed =>
      cases type with
      | integer => exact spells_of_decodeSlots rfl accepted
      | double => exact spells_of_decodeSlots rfl accepted
      | string =>
          simp only [Payload.decode] at accepted
          split at accepted
          · contradiction
          rename_i parts arrayDecoded
          obtain ⟨offsets, data⟩ := parts
          obtain ⟨layout, size⟩ := StringArray.layout_of_decode arrayDecoded
          refine ⟨StringArray.cut data offsets, ?_, .strings ⟨_, _, layout, rfl⟩⟩
          rw [StringArray.length_cut, size, Nat.add_sub_cancel]
      | skip => contradiction
  | oneValue =>
      cases type with
      | integer => exact spells_of_decodeOneSlot rfl accepted
      | double => exact spells_of_decodeOneSlot rfl accepted
      | string => exact spells_of_decodeOneString accepted
      | skip => contradiction
  | runLength =>
      cases type with
      | integer => exact spells_of_decodeRuns rfl accepted
      | double => exact spells_of_decodeRuns rfl accepted
      | string => contradiction
      | skip => contradiction
  | dictionary =>
      cases type with
      | string => exact spells_of_decodeDictionary accepted
      | integer => contradiction
      | double => contradiction
      | skip => contradiction

/-- The rows of a payload are determined by it and by their number. -/
theorem reads_of_decode {scheme : Scheme} {type : ColumnType} {rows : List Bytes} {payload : Bytes}
    {decoded : Decoded} (accepted : decode scheme type rows.length payload = .ok decoded)
    (spelled : Spells scheme type rows payload) : Reads type rows decoded := by
  obtain ⟨other, again, reads⟩ := spelled.decode
  rw [accepted] at again
  cases again
  exact reads

end Payload

end Columnar
