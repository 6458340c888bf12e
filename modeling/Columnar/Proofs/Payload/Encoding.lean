import Columnar.Options
import Columnar.Proofs.Payload.Decoding
import Mathlib.Data.List.Perm.Subperm

namespace Columnar

/-!
What the encoder writes belongs to the grammar.

Each scheme spells the rows of the values that it was given, so decoding a payload and reading its
rows gives those values.  Only the bytes of the values must be counted by a 32-bit word; then so is
every number that a payload writes down.
-/

namespace StringArray

section Writing

variable {front : Bytes} {texts : List Bytes}

theorem runningTotals_cut (front : Bytes) (texts : List Bytes) :
    cut (front ++ texts.flatten)
      (front.length :: runningTotals front.length (texts.map (·.length))) = texts := by
  induction texts generalizing front with
  | nil => rfl
  | cons text rest ih =>
      have later := ih (front ++ text)
      rw [List.length_append, List.append_assoc] at later
      simp only [List.map_cons, runningTotals, cut, List.flatten_cons, later]
      rw [← List.append_assoc, slice_middle]

@[simp] theorem length_runningTotals (start : Nat) (lengths : List Nat) :
    (runningTotals start lengths).length = lengths.length := by
  induction lengths generalizing start with
  | nil => rfl
  | cons length rest ih => simp [runningTotals, ih]

theorem runningTotals_bounds {start offset : Nat} {lengths : List Nat}
    (member : offset ∈ runningTotals start lengths) :
    start ≤ offset ∧ offset ≤ start + total lengths := by
  induction lengths generalizing start with
  | nil => simp [runningTotals] at member
  | cons length rest ih =>
      rw [total_cons]
      rcases List.mem_cons.mp member with rfl | later
      · omega
      · have bounds := ih later
        omega

theorem pairwise_runningTotals (start : Nat) (lengths : List Nat) :
    (start :: runningTotals start lengths).Pairwise (· ≤ ·) := by
  induction lengths generalizing start with
  | nil => simp [runningTotals]
  | cons length rest ih =>
      refine List.pairwise_cons.mpr ⟨?_, ih (start + length)⟩
      intro offset member
      exact (@runningTotals_bounds start offset (length :: rest) member).1

theorem getLast?_runningTotals (start : Nat) (lengths : List Nat) :
    (start :: runningTotals start lengths).getLast? = some (start + total lengths) := by
  induction lengths generalizing start with
  | nil => rfl
  | cons length rest ih =>
      rw [runningTotals, List.getLast?_cons_cons, ih, total_cons, Nat.add_assoc]

theorem length_flatten (texts : List Bytes) :
    texts.flatten.length = total (texts.map (·.length)) := by
  induction texts with
  | nil => rfl
  | cons text rest ih => simp [ih]

/-- The array that is written for strings holds them. -/
theorem holds_encode (short : total (texts.map (·.length)) < Bytes.capacity 4) :
    Holds texts (encode texts) := by
  refine ⟨0 :: runningTotals 0 (texts.map (·.length)), texts.flatten, ⟨rfl, ?_, rfl, ?_, ?_⟩, ?_⟩
  · intro offset member
    rcases List.mem_cons.mp member with rfl | later
    · decide
    · have bounds := runningTotals_bounds later
      omega
  · exact pairwise_runningTotals _ _
  · rw [getLast?_runningTotals, length_flatten, Nat.zero_add]
  · exact (runningTotals_cut [] texts).symm

theorem length_encode (texts : List Bytes) :
    (encode texts).length = (texts.length + 1) * 4 + total (texts.map (·.length)) := by
  rw [encode, List.length_append, length_flatMap_words, List.length_cons, length_runningTotals,
    List.length_map, length_flatten]

end Writing

end StringArray

namespace StringPool

/-- Interning finds a text that the pool holds, or adds one that it does not hold. -/
theorem intern_cases (pool : StringPool) (text : String) :
    (∃ code, pool.strings.toList[code]? = some text ∧ pool.intern text = (pool, code)) ∨
      text ∉ pool.strings.toList ∧
        (pool.intern text).1.strings.toList = pool.strings.toList ++ [text] ∧
        (pool.intern text).2 = pool.strings.toList.length := by
  unfold intern
  cases found : pool.strings.idxOf? text with
  | some code =>
      rw [Array.idxOf?_eq_map_finIdxOf?_val, Option.map_eq_some_iff] at found
      obtain ⟨place, here, rfl⟩ := found
      obtain ⟨same, -⟩ := Array.finIdxOf?_eq_some_iff.mp here
      refine .inl ⟨place, ?_, rfl⟩
      rw [Array.getElem?_toList, Array.getElem?_eq_getElem place.isLt]
      exact congrArg some same
  | none =>
      refine .inr ⟨?_, Array.toList_push, Array.length_toList.symm⟩
      rw [Array.mem_toList_iff]
      exact Array.idxOf?_eq_none_iff.mp found

/-- The texts that a pool gains by interning are among those interned, and the numbers given out
lead to the texts. -/
theorem internAll_spec (pool : StringPool) (texts : List String) :
    ∃ added, (pool.internAll texts).1.strings.toList = pool.strings.toList ++ added ∧
      added.Sublist texts ∧
      (pool.internAll texts).2.map (fun code => (pool.internAll texts).1.strings.toList[code]?) =
        texts.map some := by
  induction texts generalizing pool with
  | nil => exact ⟨[], by simp [internAll], .slnil, rfl⟩
  | cons text rest ih =>
      obtain ⟨added, grown, among, codes⟩ := ih (pool.intern text).1
      rw [internAll]
      simp only [List.map_cons, codes]
      rcases pool.intern_cases text with ⟨code, here, same⟩ | ⟨-, pushed, last⟩
      · rw [same] at grown ⊢
        refine ⟨added, grown, among.cons text, ?_⟩
        rw [grown, List.getElem?_append_left (List.getElem?_eq_some_iff.mp here).1, here]
      · rw [pushed, List.append_assoc] at grown
        refine ⟨text :: added, grown, among.cons_cons text, ?_⟩
        rw [grown, last, List.getElem?_append_right (Nat.le_refl _), Nat.sub_self]
        rfl

theorem nodup_intern {pool : StringPool} (distinct : pool.strings.toList.Nodup) (text : String) :
    (pool.intern text).1.strings.toList.Nodup := by
  rcases pool.intern_cases text with ⟨code, -, same⟩ | ⟨fresh, pushed, -⟩
  · rwa [same]
  · rw [pushed, List.nodup_append]
    refine ⟨distinct, List.pairwise_singleton _ _, ?_⟩
    intro held member new here same
    rw [List.mem_singleton] at here
    rw [same, here] at member
    exact fresh member

/-- Interning keeps the texts of a pool distinct. -/
theorem nodup_internAll {pool : StringPool} (distinct : pool.strings.toList.Nodup)
    (texts : List String) : (pool.internAll texts).1.strings.toList.Nodup := by
  induction texts generalizing pool with
  | nil => exact distinct
  | cons text rest ih => exact ih (nodup_intern distinct text)

end StringPool

namespace Payload

section Runs

variable {α : Type}

/-- The entries that runs stand for. -/
def expand (runs : List (α × Nat)) : List α := runs.flatMap fun run => List.replicate run.2 run.1

theorem count_le_expand {run : α × Nat} {runs : List (α × Nat)} (member : run ∈ runs) :
    run.2 ≤ (expand runs).length := by
  have inside : (List.replicate run.2 run.1).Sublist (expand runs) :=
    List.sublist_flatten_of_mem (List.mem_map.mpr ⟨run, member, rfl⟩)
  have bound := inside.length_le
  rwa [List.length_replicate] at bound

variable [DecidableEq α]

theorem expand_prependRun (value : α) (runs : List (α × Nat)) :
    expand (prependRun value runs) = value :: expand runs := by
  cases runs with
  | nil => rfl
  | cons run rest =>
      rw [prependRun]
      split
      · rename_i same
        subst same
        rfl
      · rfl

theorem expand_runs (list : List α) : expand (runs list) = list := by
  induction list with
  | nil => rfl
  | cons value rest ih => rw [runs, List.foldr_cons, expand_prependRun, ← runs, ih]

theorem length_prependRun_le (value : α) (runs : List (α × Nat)) :
    (prependRun value runs).length ≤ runs.length + 1 := by
  cases runs with
  | nil => exact Nat.le_refl 1
  | cons run others =>
      rw [prependRun]
      split <;> simp

theorem length_runs (list : List α) : (runs list).length ≤ list.length := by
  induction list with
  | nil => exact Nat.le_refl 0
  | cons value rest ih =>
      rw [runs, List.foldr_cons, ← runs, List.length_cons]
      exact Nat.le_trans (length_prependRun_le value _) (Nat.succ_le_succ ih)

theorem shared?_eq_some {list : List α} {value : α} (found : shared? list = some value) :
    list = List.replicate list.length value := by
  cases list with
  | nil => contradiction
  | cons first rest =>
      rw [shared?] at found
      split at found
      · rename_i all
        cases found
        refine List.eq_replicate_of_mem ?_
        intro entry member
        rcases List.mem_cons.mp member with rfl | member
        · rfl
        · simpa using List.all_eq_true.mp all entry member
      · contradiction

end Runs

theorem rowValue_integerSlot (row : Nat) (value : Int32) :
    rowValue .integer row (integerSlot value) = .ok (.integer value) := by
  have slot := @Bytes.toNat_ofNat_of_lt 4 _ value.toUInt32.toNat_lt
  simp [rowValue, integerSlot, slot]

theorem rowValue_doubleSlot (row : Nat) (value : Double) :
    rowValue .double row (doubleSlot value) = .ok (.double value) := by
  have slot := @Bytes.toNat_ofNat_of_lt 8 _ value.bits.toNat_lt
  simp [rowValue, doubleSlot, slot]

end Payload

namespace Values

/-- The bytes of each row: the slot of a number, the UTF-8 of a text. -/
def rows : Values → List Bytes
  | .integers list => list.map Payload.integerSlot
  | .doubles list => list.map Payload.doubleSlot
  | .strings list => list.map Text.encode

/-- The bytes of the values themselves. -/
def dataBytes : Values → Nat
  | .integers list => list.length * 4
  | .doubles list => list.length * 8
  | .strings list => total (list.map (·.utf8ByteSize))

/-- What a payload has to count: numbers, or the bytes of texts. -/
def extent : Values → Nat
  | .integers list => list.length
  | .doubles list => list.length
  | .strings list => total (list.map (·.utf8ByteSize))

/-- Values whose rows, and the bytes of whose texts, are counted by 32-bit words. -/
structure Counted (values : Values) : Prop where
  rows : values.length ≤ maxWord
  extent : values.extent ≤ maxWord

theorem extent_le_dataBytes (values : Values) : values.extent ≤ values.dataBytes := by
  cases values with
  | integers list => exact Nat.le_mul_of_pos_right _ (by decide)
  | doubles list => exact Nat.le_mul_of_pos_right _ (by decide)
  | strings list => exact Nat.le_refl _

@[simp] theorem length_rows (values : Values) : values.rows.length = values.length := by
  cases values <;> simp [rows, length]

/-- The bytes of a row say the row's value. -/
theorem rowValue_rows {values : Values} {row : Nat} (inside : row < values.rows.length) :
    (values.cells[row]?).map .ok = some (Payload.rowValue values.type row values.rows[row]) := by
  cases values with
  | integers list =>
      have bound : row < list.length := by simpa [rows] using inside
      simp [cells, rows, type, bound, Payload.rowValue_integerSlot]
  | doubles list =>
      have bound : row < list.length := by simpa [rows] using inside
      simp [cells, rows, type, bound, Payload.rowValue_doubleSlot]
  | strings list =>
      have bound : row < list.length := by simpa [rows] using inside
      simp [cells, rows, type, Payload.rowValue, Text.decode_encode, bound]

end Values

namespace Payload

theorem length_encode_text (text : String) : (Text.encode text).length = text.utf8ByteSize := rfl

theorem text_le_total {texts : List String} {text : String} (member : text ∈ texts) :
    text.utf8ByteSize ≤ total (texts.map (·.utf8ByteSize)) := by
  induction texts with
  | nil => contradiction
  | cons first rest ih =>
      rw [List.map_cons, total_cons]
      rcases List.mem_cons.mp member with rfl | later
      · omega
      · have bound := ih later
        omega

theorem total_le_of_sublist {few many : List Nat} (sublist : few.Sublist many) :
    total few ≤ total many := by
  induction sublist with
  | slnil => exact Nat.le_refl _
  | cons count rest ih => rw [total_cons]; omega
  | cons_cons count rest ih => rw [total_cons, total_cons]; omega

/-- The byte strings of at most one byte. -/
def shortest : List Bytes := [] :: (List.range 256).map fun value => [UInt8.ofNat value]

theorem mem_shortest {bytes : Bytes} (short : bytes.length ≤ 1) : bytes ∈ shortest := by
  match bytes, short with
  | [], _ => exact List.mem_cons_self
  | [byte], _ =>
      refine List.mem_cons_of_mem _ (List.mem_map.mpr ⟨byte.toNat, ?_, by simp⟩)
      exact List.mem_range.mpr byte.toNat_lt

theorem encode_injective {first second : String} (same : Text.encode first = Text.encode second) :
    first = second := by
  have decoded := Text.decode_encode first
  rw [same, Text.decode_encode] at decoded
  exact (Except.ok.inj decoded).symm

/-- Few texts are shorter than two bytes, so distinct ones are not many more than half their
bytes. -/
theorem length_le_of_nodup {texts : List String} (distinct : texts.Nodup) :
    2 * texts.length ≤ total (texts.map (·.utf8ByteSize)) + 2 * 257 := by
  let small := texts.filter fun text => text.utf8ByteSize ≤ 1
  have few : small.length ≤ 257 := by
    have among : small.map Text.encode ⊆ shortest := by
      intro bytes member
      obtain ⟨text, inside, rfl⟩ := List.mem_map.mp member
      exact mem_shortest (of_decide_eq_true (List.mem_filter.mp inside).2)
    have unlike : (small.map Text.encode).Nodup :=
      List.Pairwise.map _ (fun _ _ differs same => differs (encode_injective same))
        (distinct.filter _)
    have bound := (List.subperm_of_subset unlike among).length_le
    simpa [shortest] using bound
  have paired (list : List String) : 2 * list.length ≤ total (list.map (·.utf8ByteSize)) +
      2 * (list.filter fun text => text.utf8ByteSize ≤ 1).length := by
    induction list with
    | nil => simp
    | cons text rest ih =>
        by_cases tiny : text.utf8ByteSize ≤ 1
        · simp only [List.filter_cons, tiny, decide_true, if_true, List.length_cons, List.map_cons,
            total_cons]
          omega
        · simp only [List.filter_cons, tiny, decide_false, Bool.false_eq_true, if_false,
            List.length_cons, List.map_cons, total_cons]
          omega
  have whole := paired texts
  change 2 * texts.length ≤ total (texts.map (·.utf8ByteSize)) + 2 * small.length at whole
  omega

theorem length_lt_of_nodup {texts : List String} (distinct : texts.Nodup)
    (short : total (texts.map (·.utf8ByteSize)) ≤ maxWord) :
    texts.length < Bytes.capacity 4 := by
  have bound := length_le_of_nodup distinct
  rw [Bytes.capacity_four]
  simp only [maxWord] at short
  omega

section Schemes

theorem holds_encodeStrings {texts : List String}
    (short : total (texts.map (·.utf8ByteSize)) ≤ maxWord) :
    StringArray.Holds (texts.map Text.encode) (encodeStrings texts) := by
  apply StringArray.holds_encode
  have lengths : (texts.map Text.encode).map (·.length) = texts.map (·.utf8ByteSize) := by
    rw [List.map_map]
    rfl
  rw [lengths, Bytes.capacity_four]
  simp only [maxWord] at short
  omega

/-- The runs of a list as they are written, each with its slot. -/
def writtenRuns {α : Type} [DecidableEq α] (slot : α → Bytes) (list : List α) : List Run :=
  (runs list).map fun run => ⟨slot run.1, run.2⟩

theorem encodeRuns_eq {α : Type} [DecidableEq α] (slot : α → Bytes) (list : List α) :
    encodeRuns slot list = Bytes.ofNat 4 (writtenRuns slot list).length ++
      (writtenRuns slot list).flatMap Run.written := by
  rw [encodeRuns, writtenRuns, List.length_map, List.flatMap_map]
  rfl

theorem rows_writtenRuns {α : Type} [DecidableEq α] (slot : α → Bytes) (list : List α) :
    (writtenRuns slot list).flatMap Run.rows = list.map slot := by
  have whole := congrArg (List.map slot) (expand_runs list)
  rw [expand, List.map_flatMap] at whole
  simp only [List.map_replicate] at whole
  rw [← whole, writtenRuns, List.flatMap_map]
  rfl

theorem spells_encodeRuns {α : Type} [DecidableEq α] {slot : α → Bytes} {list : List α}
    {type : ColumnType} {width : Nat} (numeric : slotWidth? type = some width)
    (widths : ∀ value, (slot value).length = width) (short : list.length ≤ maxWord) :
    Spells .runLength type (list.map slot) (encodeRuns slot list) := by
  have fits {count : Nat} (small : count ≤ list.length) : count < Bytes.capacity 4 := by
    rw [Bytes.capacity_four]
    simp only [maxWord] at short
    omega
  rw [← rows_writtenRuns, encodeRuns_eq]
  refine .runs numeric ?_ ?_ ?_
  · intro run member
    obtain ⟨source, -, rfl⟩ := List.mem_map.mp member
    exact widths source.1
  · intro run member
    obtain ⟨source, inside, rfl⟩ := List.mem_map.mp member
    have bound := count_le_expand inside
    rw [expand_runs] at bound
    exact fits bound
  · rw [writtenRuns, List.length_map]
    exact fits (length_runs list)

theorem spells_encodeDictionary {texts : List String}
    (short : total (texts.map (·.utf8ByteSize)) ≤ maxWord) :
    Spells .dictionary .string (texts.map Text.encode) (encodeDictionary texts) := by
  obtain ⟨added, grown, among, codes⟩ := StringPool.empty.internAll_spec texts
  have distinct := @StringPool.nodup_internAll .empty List.nodup_nil texts
  rw [encodeDictionary]
  cases pooled : StringPool.empty.internAll texts with
  | mk pool numbers =>
      rw [pooled] at grown codes distinct
      have strings : pool.strings.toList = added := by simpa [StringPool.empty] using grown
      simp only [strings] at codes
      have size : pool.size = (added.map Text.encode).length := by
        rw [List.length_map, ← strings, Array.length_toList]
        rfl
      have known : ∀ code ∈ numbers, code < (added.map Text.encode).length := by
        intro code member
        have image : added[code]? ∈ texts.map some := by
          rw [← codes]
          exact List.mem_map.mpr ⟨code, member, rfl⟩
        obtain ⟨text, -, found⟩ := List.mem_map.mp image
        rw [List.length_map]
        exact (List.getElem?_eq_some_iff.mp found.symm).1
      have spelled : texts.map Text.encode =
          numbers.map fun code => (added.map Text.encode).getD code [] := by
        have read := congrArg (List.map fun found : Option String =>
          ((found.map Text.encode).getD [])) codes
        simp only [List.map_map] at read
        rw [show texts.map Text.encode = texts.map
          ((fun found : Option String => (found.map Text.encode).getD []) ∘ some) from rfl, ← read]
        apply List.map_congr_left
        intro code _
        simp [List.getD_eq_getElem?_getD]
      have bounded : total (added.map (·.utf8ByteSize)) ≤ maxWord :=
        Nat.le_trans (total_le_of_sublist (among.map _)) short
      simp only [size, strings]
      rw [spelled]
      refine .dictionary (holds_encodeStrings bounded) ?_ known
      rw [strings] at distinct
      rw [List.length_map]
      exact length_lt_of_nodup distinct bounded

theorem spells_slots {α : Type} {slot : α → Bytes} {type : ColumnType} {width : Nat}
    (numeric : slotWidth? type = some width) (widths : ∀ value, (slot value).length = width)
    (list : List α) : Spells .uncompressed type (list.map slot) (list.flatMap slot) := by
  rw [List.flatMap_def]
  refine .slots numeric ?_
  intro bytes member
  obtain ⟨value, -, rfl⟩ := List.mem_map.mp member
  exact widths value

theorem spells_sharedSlot {α : Type} [DecidableEq α] {slot : α → Bytes} {list : List α}
    {type : ColumnType} {width : Nat} {payload : Bytes} (numeric : slotWidth? type = some width)
    (widths : ∀ value, (slot value).length = width)
    (found : (shared? list).map slot = some payload) :
    Spells .oneValue type (list.map slot) payload := by
  obtain ⟨value, shared, rfl⟩ := Option.map_eq_some_iff.mp found
  rw [shared?_eq_some shared, List.map_replicate]
  exact .oneSlot _ (by rw [widths]; exact numeric)

theorem spells_sharedText {texts : List String} {text : String} (shared : shared? texts = some text)
    (short : total (texts.map (·.utf8ByteSize)) ≤ maxWord) :
    Spells .oneValue .string (texts.map Text.encode)
      (Bytes.ofNat 4 text.utf8ByteSize ++ Text.encode text) := by
  have same := shared?_eq_some shared
  have member : text ∈ texts := by
    cases texts with
    | nil => cases shared
    | cons first rest =>
        rw [same]
        simp
  have fits : (Text.encode text).length < Bytes.capacity 4 := by
    have bound := text_le_total member
    simp only [maxWord] at short
    rw [length_encode_text, Bytes.capacity_four]
    omega
  rw [same, List.map_replicate]
  exact .oneString _ fits

theorem spells_encode {scheme : Scheme} {values : Values} {payload : Bytes}
    (encoded : encode scheme values = some payload) (short : values.extent ≤ maxWord) :
    Spells scheme values.type values.rows payload := by
  have integerWidth (value : Int32) : (integerSlot value).length = 4 := Bytes.length_ofNat ..
  have doubleWidth (value : Double) : (doubleSlot value).length = 8 := Bytes.length_ofNat ..
  cases scheme with
  | uncompressed =>
      cases values with
      | integers list => cases encoded; exact spells_slots rfl integerWidth list
      | doubles list => cases encoded; exact spells_slots rfl doubleWidth list
      | strings list => cases encoded; exact .strings (holds_encodeStrings short)
  | oneValue =>
      cases values with
      | integers list => exact spells_sharedSlot rfl integerWidth encoded
      | doubles list => exact spells_sharedSlot rfl doubleWidth encoded
      | strings list =>
          obtain ⟨text, shared, rfl⟩ := Option.map_eq_some_iff.mp encoded
          exact spells_sharedText shared short
  | runLength =>
      cases values with
      | integers list =>
          cases encoded
          exact spells_encodeRuns rfl integerWidth short
      | doubles list =>
          cases encoded
          exact spells_encodeRuns rfl doubleWidth short
      | strings list => cases encoded
  | dictionary =>
      cases values with
      | integers list => cases encoded
      | doubles list => cases encoded
      | strings list => cases encoded; exact spells_encodeDictionary short

end Schemes

end Payload

/-- A reader that gives each of the cells at its row. -/
def RowReader.Serves (reader : RowReader) (cells : List Cell) : Prop :=
  ∀ row cell, cells[row]? = some cell → reader.value row = .ok cell

/-- A payload that spells the rows of values gives the values back. -/
theorem Payload.Spells.serves {scheme : Scheme} {values : Values} {payload : Bytes}
    (spelled : Spells scheme values.type values.rows payload) :
    ∃ decoded reader, Payload.decode scheme values.type values.length payload = .ok decoded ∧
      RowReader.ofDecoded values.type values.length decoded = .ok reader ∧
      reader.Serves values.cells := by
  obtain ⟨decoded, accepted, reader, opened, reads⟩ := spelled.decode
  rw [Values.length_rows] at accepted opened
  refine ⟨decoded, reader, accepted, opened, ?_⟩
  intro row cell found
  have inside : row < values.rows.length := by
    rw [Values.length_rows, ← Values.length_cells]
    exact (List.getElem?_eq_some_iff.mp found).1
  have value := Values.rowValue_rows inside
  rw [found] at value
  rw [reads row inside]
  exact (Option.some.inj value).symm

/-- Values come back from whatever payload a scheme has made of them. -/
theorem Payload.decode_written {scheme : Scheme} {values : Values} {payload : Bytes}
    (encoded : encode scheme values = some payload) (short : values.extent ≤ maxWord) :
    ∃ decoded reader, decode scheme values.type values.length payload = .ok decoded ∧
      RowReader.ofDecoded values.type values.length decoded = .ok reader ∧
      reader.Serves values.cells :=
  (spells_encode encoded short).serves

theorem Payload.decode_encode {scheme : Scheme} {values : Values} {payload : Bytes}
    (encoded : encode scheme values = some payload) (short : values.dataBytes ≤ maxWord) :
    ∃ decoded reader, decode scheme values.type values.length payload = .ok decoded ∧
      RowReader.ofDecoded values.type values.length decoded = .ok reader ∧
      reader.Serves values.cells :=
  decode_written encoded (Nat.le_trans values.extent_le_dataBytes short)

end Columnar
