import Columnar.Options
import Columnar.Proofs.Payload.Decoding

namespace Columnar.Payload.Guarded

/-!
Decoding with every access guarded.

This decoder works on buffers the way a machine does: it indexes and splits them, subtracts lengths
and multiplies counts in 64-bit words, and appends to an output that may hold something before.
`none` is an access outside a buffer, a difference below zero or an overflow.  `decode_eq` says that
none of these ever happens, and that the result is the one of `Payload.decode`.
-/

/-- Lengths and positions are 64-bit words. -/
def addressable : Nat := 0x10000000000000000

def product? (left right : Nat) : Option Nat :=
  if left * right < addressable then some (left * right) else none

def sum? (left right : Nat) : Option Nat :=
  if left + right < addressable then some (left + right) else none

def difference? (left right : Nat) : Option Nat :=
  if right ≤ left then some (left - right) else none

def front? (count : Nat) (buffer : Bytes) : Option Bytes :=
  if count ≤ buffer.length then some (buffer.take count) else none

def behind? (count : Nat) (buffer : Bytes) : Option Bytes :=
  if count ≤ buffer.length then some (buffer.drop count) else none

def wordAt? (buffer : Bytes) (position : Nat) : Option Nat :=
  if position + 4 ≤ buffer.length then some (Bytes.toNat (slice position (position + 4) buffer))
  else none

/-- An output is emptied before anything is appended. -/
def cleared (prior : Bytes) : Bytes := prior.take 0

def copySlots (width rows : Nat) (payload out : Bytes) : Option (Except Corruption Decoded) := do
  let expected ← product? rows width
  if payload.length ≠ expected then return .error (.slotBytes expected rows payload.length)
  else return .ok ⟨out ++ payload, false⟩

def appendRepeated (bytes : Bytes) : Nat → Bytes → Bytes
  | 0, out => out
  | count + 1, out => appendRepeated bytes count (out ++ bytes)

def repeatSlot (width rows : Nat) (payload out : Bytes) : Option (Except Corruption Decoded) :=
  if payload.length ≠ width then some (.error (.oneValueBytes width payload.length))
  else some (.ok ⟨appendRepeated payload rows out, false⟩)

/-- Appends the rows of so many runs; `covered` rows stand in the output. -/
def appendRuns (width rows : Nat) :
    Nat → Nat → Bytes → Bytes → Option (Except Corruption Decoded)
  | 0, covered, _, out =>
      if covered ≠ rows then some (.error (.runsTooShort covered rows)) else some (.ok ⟨out, false⟩)
  | count + 1, covered, buffer, out => do
      let length ← wordAt? buffer width
      let covered ← sum? covered length
      if rows < covered then return .error (.runsTooLong rows)
      else
        let slot ← front? width buffer
        let rest ← behind? (width + 4) buffer
        appendRuns width rows count covered rest (appendRepeated slot length out)

def decodeRuns (width rows : Nat) (payload out : Bytes) : Option (Except Corruption Decoded) :=
  if payload.length < 4 then some (.error (.endsBefore "run count"))
  else do
    let count ← wordAt? payload 0
    let rest ← behind? 4 payload
    let expected ← product? count (width + 4)
    if rest.length ≠ expected then return .error (.runBytes count expected rest.length)
    else appendRuns width rows count 0 rest out

/-- Passes over so many offsets, none of which may be below the one before it, and returns the
last. -/
def lastOffset : Nat → Nat → Bytes → Option (Except Corruption Nat)
  | 0, previous, _ => some (.ok previous)
  | count + 1, previous, buffer => do
      let next ← wordAt? buffer 0
      let rest ← behind? 4 buffer
      if next < previous then return .error .offsetsDecrease
      else lastOffset count next rest

def checkStringArray (payload : Bytes) (count : Nat) : Option (Except Corruption Unit) := do
  let entries ← sum? count 1
  let header ← product? entries 4
  if payload.length < header then return .error (.offsetsMissing count)
  else
    let offsets ← front? header payload
    let first ← wordAt? offsets 0
    let rest ← behind? 4 offsets
    if first ≠ 0 then return .error .firstOffset
    else
      match ← lastOffset count first rest with
      | .error cause => return .error cause
      | .ok last =>
          let dataLength ← difference? payload.length header
          if last ≠ dataLength then return .error (.lastOffset last dataLength)
          else return .ok ()

def copyStrings (rows : Nat) (payload out : Bytes) : Option (Except Corruption Decoded) := do
  match ← checkStringArray payload rows with
  | .error cause => return .error cause
  | .ok () => return .ok ⟨out ++ payload, false⟩

def repeatString (rows : Nat) (payload out : Bytes) : Option (Except Corruption Decoded) :=
  if payload.length < 4 then some (.error (.endsBefore "one-value string length"))
  else do
    let declared ← wordAt? payload 0
    let text ← behind? 4 payload
    if text.length ≠ declared then return .error (.oneStringBytes declared text.length)
    else return .ok ⟨appendRepeated (pointer 0 declared) rows out ++ text, true⟩

/-- Appends a pointer for each of so many entry numbers, from a row on. -/
def appendPointers (array : Bytes) (entries : Nat) :
    Nat → Nat → Bytes → Bytes → Option (Except Corruption Bytes)
  | _, 0, _, out => some (.ok out)
  | row, count + 1, codes, out => do
      let code ← wordAt? codes 0
      let rest ← behind? 4 codes
      if entries ≤ code then return .error (.codeOutOfRange row code entries)
      else
        let position ← product? code 4
        let start ← wordAt? array position
        let stop ← wordAt? array (position + 4)
        let length ← difference? stop start
        appendPointers array entries (row + 1) count rest (out ++ pointer start length)

def decodeDictionary (rows : Nat) (payload out : Bytes) : Option (Except Corruption Decoded) :=
  if payload.length < 4 then some (.error (.endsBefore "dictionary size"))
  else do
    let entries ← wordAt? payload 0
    let rest ← behind? 4 payload
    let codesLength ← product? rows 4
    if rest.length < codesLength then return .error .codesMissing
    else
      let split ← difference? rest.length codesLength
      let array ← front? split rest
      let codes ← behind? split rest
      match ← checkStringArray array entries with
      | .error cause => return .error cause
      | .ok () =>
          let offsets ← sum? entries 1
          let header ← product? offsets 4
          match ← appendPointers array entries 0 rows codes out with
          | .error cause => return .error cause
          | .ok pointers =>
              let data ← behind? header array
              return .ok ⟨pointers ++ data, true⟩

/-- Decodes into an output with prior content. -/
def decode (scheme : Scheme) (type : ColumnType) (rows : Nat) (payload prior : Bytes) :
    Option (Except Corruption Decoded) :=
  let out := cleared prior
  match scheme, type with
  | .uncompressed, .integer => copySlots 4 rows payload out
  | .uncompressed, .double => copySlots 8 rows payload out
  | .uncompressed, .string => copyStrings rows payload out
  | .oneValue, .integer => repeatSlot 4 rows payload out
  | .oneValue, .double => repeatSlot 8 rows payload out
  | .oneValue, .string => repeatString rows payload out
  | .runLength, .integer => decodeRuns 4 rows payload out
  | .runLength, .double => decodeRuns 8 rows payload out
  | .dictionary, .string => decodeDictionary rows payload out
  | scheme, type => some (.error (.wrongScheme scheme type))

section Accesses

variable {left right count position : Nat} {buffer : Bytes}

theorem product?_eq (small : left * right < addressable) :
    product? left right = some (left * right) := if_pos small

theorem sum?_eq (small : left + right < addressable) : sum? left right = some (left + right) :=
  if_pos small

theorem difference?_eq (ordered : right ≤ left) : difference? left right = some (left - right) :=
  if_pos ordered

theorem front?_eq (inside : count ≤ buffer.length) :
    front? count buffer = some (buffer.take count) := if_pos inside

theorem behind?_eq (inside : count ≤ buffer.length) :
    behind? count buffer = some (buffer.drop count) := if_pos inside

theorem wordAt?_eq (inside : position + 4 ≤ buffer.length) :
    wordAt? buffer position = some (Bytes.toNat (slice position (position + 4) buffer)) :=
  if_pos inside

theorem wordAt?_zero (inside : 4 ≤ buffer.length) :
    wordAt? buffer 0 = some (Bytes.toNat (buffer.take 4)) := by
  rw [wordAt?_eq (by omega)]
  rfl

theorem toNat_slice_lt (position : Nat) (buffer : Bytes) :
    Bytes.toNat (slice position (position + 4) buffer) < Bytes.capacity 4 := by
  have member : Bytes.toNat (slice position (position + 4) buffer) ∈
      StringArray.words 1 (buffer.drop position) := by
    simp [StringArray.words, slice]
  exact StringArray.words_lt member

theorem appendRepeated_eq (bytes : Bytes) (count : Nat) (out : Bytes) :
    appendRepeated bytes count out = out ++ (List.replicate count bytes).flatten := by
  induction count generalizing out with
  | zero => simp [appendRepeated]
  | succ count ih => simp [appendRepeated, ih, List.replicate_succ]

end Accesses

section Runs

variable {width rows : Nat}

/-- What is left of decoding when so many rows stand in the output and the given runs follow. -/
def runsResult (rows covered : Nat) (runs : List Run) (out : Bytes) : Except Corruption Decoded :=
  let reached := covered + total (runs.map (·.count))
  if rows < reached then .error (.runsTooLong rows)
  else if reached ≠ rows then .error (.runsTooShort reached rows)
  else .ok ⟨out ++ runs.flatMap Run.expand, false⟩

/-- The loop stops as soon as the rows are too many, which is what their total says. -/
theorem appendRuns_eq {count covered : Nat} {buffer : Bytes} (out : Bytes)
    (small : rows ≤ maxWord) (within : covered ≤ rows)
    (whole : buffer.length = count * (width + 4)) :
    appendRuns width rows count covered buffer out =
      some (runsResult rows covered (splitRuns width count buffer) out) := by
  induction count generalizing covered buffer out with
  | zero =>
      simp only [appendRuns, splitRuns, runsResult, List.map_nil, total_nil, Nat.add_zero,
        List.flatMap_nil, List.append_nil, Nat.not_lt.mpr within, if_false]
      split <;> rfl
  | succ count ih =>
      rw [Nat.add_mul, Nat.one_mul] at whole
      have read := wordAt?_eq (show width + 4 ≤ buffer.length by omega)
      have bound := toNat_slice_lt width buffer
      have same : (buffer.drop width).take 4 = slice width (width + 4) buffer := by simp [slice]
      have slot := front?_eq (show width ≤ buffer.length by omega)
      have rest := behind?_eq (show width + 4 ≤ buffer.length by omega)
      rw [Bytes.capacity_four] at bound
      have added : sum? covered (Bytes.toNat (slice width (width + 4) buffer)) =
          some (covered + Bytes.toNat (slice width (width + 4) buffer)) :=
        sum?_eq (by simp only [maxWord, addressable] at small ⊢; omega)
      rw [appendRuns, splitRuns, same]
      generalize Bytes.toNat (slice width (width + 4) buffer) = length at read added
      simp only [read, added, slot, rest, Option.bind_eq_bind, Option.bind_some]
      by_cases past : rows < covered + length
      · have tooLong : rows < covered + (length + total
            ((splitRuns width count (buffer.drop (width + 4))).map (·.count))) := by omega
        rw [if_pos past, runsResult, List.map_cons, total_cons]
        simp only [if_pos tooLong, pure]
      · have others := @ih (covered + length) (buffer.drop (width + 4))
          (out ++ Run.expand ⟨buffer.take width, length⟩) (by omega) (by
            simp only [List.length_drop]
            omega)
        rw [if_neg past, appendRepeated_eq]
        refine others.trans ?_
        simp only [runsResult, List.map_cons, total_cons, Nat.add_assoc, List.flatMap_cons,
          List.append_assoc]

theorem decodeRuns_eq {payload : Bytes} (small : rows ≤ maxWord) (narrow : width ≤ 8) :
    decodeRuns width rows payload [] = some (Payload.decodeRuns width rows payload) := by
  by_cases short : payload.length < 4
  · have missing : Bytes.takeNat? 4 payload = none := Bytes.takeNat?_eq_none short
    rw [decodeRuns, if_pos short, Payload.decodeRuns, missing]
  · have taken := Bytes.takeNat?_of_le (show 4 ≤ payload.length by omega)
    have bound := (Bytes.takeNat?_eq_some_iff.mp taken).2
    rw [decodeRuns, if_neg short, Payload.decodeRuns, taken, wordAt?_zero (by omega),
      behind?_eq (by omega)]
    generalize Bytes.toNat (payload.take 4) = count at bound
    rw [Bytes.capacity_four] at bound
    have product : product? count (width + 4) = some (count * (width + 4)) := by
      apply product?_eq
      have most : count * (width + 4) ≤ 4294967296 * 12 := Nat.mul_le_mul (by omega) (by omega)
      simp only [addressable]
      omega
    simp only [Option.bind_eq_bind, Option.bind_some, product]
    by_cases whole : (payload.drop 4).length = count * (width + 4)
    · rw [if_neg (by omega), if_neg (by omega), appendRuns_eq [] small (Nat.zero_le _) whole]
      simp only [runsResult, Nat.zero_add, List.nil_append]
    · rw [if_pos whole, if_pos whole]
      rfl

end Runs

section StringArrays

theorem lastOffset_eq {count : Nat} (previous : Nat) {buffer : Bytes}
    (enough : count * 4 ≤ buffer.length) :
    lastOffset count previous buffer = some (
      let offsets := previous :: StringArray.words count buffer
      if StringArray.ascends offsets then .ok (offsets.getLastD 0)
      else .error .offsetsDecrease) := by
  induction count generalizing previous buffer with
  | zero => rfl
  | succ count ih =>
      rw [lastOffset, wordAt?_zero (by omega), behind?_eq (by omega), StringArray.words]
      generalize Bytes.toNat (buffer.take 4) = next
      have others := @ih next (buffer.drop 4) (by
        simp only [List.length_drop]
        omega)
      simp only [Option.bind_eq_bind, Option.bind_some]
      by_cases decrease : next < previous
      · have stop : ¬ previous ≤ next := by omega
        simp only [if_pos decrease, StringArray.ascends, stop, decide_false, Bool.false_and,
          Bool.false_eq_true, if_false, pure]
      · have step : previous ≤ next := by omega
        rw [if_neg decrease]
        simp only [others, StringArray.ascends, step, decide_true, Bool.true_and]
        rfl

theorem checkStringArray_eq {count : Nat} (payload : Bytes) (small : count ≤ maxWord) :
    checkStringArray payload count =
      some ((StringArray.decode count payload).map fun _ => ()) := by
  have entries : sum? count 1 = some (count + 1) :=
    sum?_eq (by simp only [maxWord, addressable] at small ⊢; omega)
  have header : product? (count + 1) 4 = some ((count + 1) * 4) :=
    product?_eq (by simp only [maxWord, addressable] at small ⊢; omega)
  simp only [checkStringArray, StringArray.decode, entries, header, Option.bind_eq_bind,
    Option.bind_some]
  by_cases short : payload.length < (count + 1) * 4
  · simp only [if_pos short]
    rfl
  · have width : (payload.take ((count + 1) * 4)).length = (count + 1) * 4 := by
      simp only [List.length_take]
      omega
    have read : (payload.take ((count + 1) * 4)).take 4 = payload.take 4 := by
      rw [List.take_take, Nat.min_eq_left (by omega)]
    have rest : StringArray.words count ((payload.take ((count + 1) * 4)).drop 4) =
        StringArray.words count (payload.drop 4) := by
      rw [List.drop_take, StringArray.words_take (by omega)]
    have behind : count * 4 ≤ ((payload.take ((count + 1) * 4)).drop 4).length := by
      simp only [List.length_drop]
      omega
    have scan := lastOffset_eq (Bytes.toNat (payload.take 4)) behind
    rw [rest] at scan
    rw [if_neg short, if_neg short, front?_eq (by omega)]
    simp only [Option.bind_some, wordAt?_zero (Nat.le_trans (by omega) (Nat.le_of_eq width.symm)),
      behind?_eq (Nat.le_trans (by omega : 4 ≤ (count + 1) * 4) (Nat.le_of_eq width.symm)), read,
      StringArray.words, List.headD_cons]
    by_cases zero : Bytes.toNat (payload.take 4) = 0
    · rw [zero] at scan
      simp only [zero, ne_eq, not_true_eq_false, if_false, scan]
      cases StringArray.ascends (0 :: StringArray.words count (payload.drop 4)) with
      | false => rfl
      | true =>
          simp only [if_true, Option.bind_some, difference?_eq (Nat.le_of_not_lt short),
            Bool.not_true, Bool.false_eq_true, if_false]
          split <;> rfl
    · simp only [ne_eq, zero, not_false_eq_true, if_true]
      rfl

end StringArrays

section Strings

theorem repeatString_eq (rows : Nat) (payload : Bytes) :
    repeatString rows payload [] = some (decodeOneString rows payload) := by
  by_cases short : payload.length < 4
  · have missing : Bytes.takeNat? 4 payload = none := Bytes.takeNat?_eq_none short
    rw [repeatString, if_pos short, decodeOneString, missing]
  · have taken := Bytes.takeNat?_of_le (show 4 ≤ payload.length by omega)
    rw [repeatString, if_neg short, decodeOneString, taken, wordAt?_zero (by omega),
      behind?_eq (by omega)]
    simp only [Option.bind_eq_bind, Option.bind_some, appendRepeated_eq, List.nil_append]
    split <;> rfl

theorem wordAt?_offset {array data : Bytes} {offsets : List Nat} {index : Nat}
    (layout : StringArray.Layout offsets data array) (inside : index < offsets.length) :
    wordAt? array (index * 4) = some offsets[index] := by
  have length := layout.length_eq
  have read := StringArray.readNat?_flatMap data layout.fits inside
  rw [← layout.written, Bytes.readNat?_toArray, if_pos (by omega)] at read
  rw [wordAt?_eq (by omega), read]

/-- Entry numbers below the number of entries lead to offsets inside the array. -/
theorem appendPointers_eq {array data : Bytes} {offsets : List Nat} {entries count row : Nat}
    {codes out : Bytes} (layout : StringArray.Layout offsets data array)
    (size : offsets.length = entries + 1) (few : entries < Bytes.capacity 4)
    (enough : count * 4 ≤ codes.length) :
    appendPointers array entries row count codes out =
      some ((pointersOf offsets.toArray entries row (StringArray.words count codes)).map
        fun pointers => out ++ pointers.flatten) := by
  induction count generalizing row codes out with
  | zero => simp [appendPointers, StringArray.words, pointersOf, Except.map]
  | succ count ih =>
      rw [appendPointers, wordAt?_zero (by omega), behind?_eq (by omega), StringArray.words]
      generalize Bytes.toNat (codes.take 4) = code
      simp only [Option.bind_eq_bind, Option.bind_some, pointersOf]
      by_cases known : entries ≤ code
      · simp only [if_pos known]
        rfl
      · rw [Bytes.capacity_four] at few
        have inside : code + 1 < offsets.length := by omega
        have next : code * 4 + 4 = (code + 1) * 4 := by omega
        have product : product? code 4 = some (code * 4) :=
          product?_eq (by simp only [addressable]; omega)
        have start := wordAt?_offset layout (show code < offsets.length by omega)
        have stop := wordAt?_offset layout inside
        have others := @ih (row + 1) (codes.drop 4)
          (out ++ pointer offsets[code] (offsets[code + 1] - offsets[code])) (by
            simp only [List.length_drop]
            omega)
        simp only [if_neg known, product, Option.bind_some, next, start, stop,
          difference?_eq (layout.step inside), others]
        have first : offsets.toArray[code]?.getD 0 = offsets[code] := by
          simp [List.getElem?_eq_getElem (by omega : code < offsets.length)]
        have second : offsets.toArray[code + 1]?.getD 0 = offsets[code + 1] := by
          simp [List.getElem?_eq_getElem inside]
        rw [first, second]
        cases pointersOf offsets.toArray entries (row + 1)
            (StringArray.words count (codes.drop 4)) with
        | error cause => rfl
        | ok pointers => simp [Except.map]

theorem decodeDictionary_eq {rows : Nat} (payload : Bytes) (small : rows ≤ maxWord) :
    decodeDictionary rows payload [] = some (Payload.decodeDictionary rows payload) := by
  by_cases short : payload.length < 4
  · have missing : Bytes.takeNat? 4 payload = none := Bytes.takeNat?_eq_none short
    rw [decodeDictionary, if_pos short, Payload.decodeDictionary, missing]
  · have taken := Bytes.takeNat?_of_le (show 4 ≤ payload.length by omega)
    have few := (Bytes.takeNat?_eq_some_iff.mp taken).2
    rw [decodeDictionary, if_neg short, Payload.decodeDictionary, taken, wordAt?_zero (by omega),
      behind?_eq (by omega)]
    generalize Bytes.toNat (payload.take 4) = entries at few
    generalize payload.drop 4 = rest
    have product : product? rows 4 = some (rows * 4) :=
      product?_eq (by simp only [maxWord, addressable] at small ⊢; omega)
    simp only [Option.bind_eq_bind, Option.bind_some, product]
    by_cases missing : rest.length < rows * 4
    · simp only [if_pos missing]
      rfl
    · have entriesSmall : entries ≤ maxWord := by
        rw [Bytes.capacity_four] at few
        simp only [maxWord]
        omega
      simp only [if_neg missing, difference?_eq (Nat.le_of_not_lt missing), Option.bind_some,
        front?_eq (Nat.sub_le rest.length (rows * 4)),
        behind?_eq (Nat.sub_le rest.length (rows * 4)), checkStringArray_eq _ entriesSmall]
      cases decoded : StringArray.decode entries (rest.take (rest.length - rows * 4)) with
      | error cause => rfl
      | ok parts =>
          obtain ⟨offsets, data⟩ := parts
          obtain ⟨layout, size⟩ := StringArray.layout_of_decode decoded
          have codes := @appendPointers_eq _ _ _ _ rows 0 (rest.drop (rest.length - rows * 4)) []
            layout size few (by
              simp only [List.length_drop]
              omega)
          have sum : sum? entries 1 = some (entries + 1) :=
            sum?_eq (by simp only [maxWord, addressable] at entriesSmall ⊢; omega)
          have header : product? (entries + 1) 4 = some ((entries + 1) * 4) :=
            product?_eq (by simp only [maxWord, addressable] at entriesSmall ⊢; omega)
          have length := layout.length_eq
          have table := StringArray.length_flatMap_words offsets
          have dropped : (rest.take (rest.length - rows * 4)).drop ((entries + 1) * 4) = data := by
            rw [layout.written, ← size, ← table, List.drop_left]
          simp only [Except.map, Option.bind_some, sum, header, codes]
          cases pointersOf offsets.toArray entries 0
              (StringArray.words rows (rest.drop (rest.length - rows * 4))) with
          | error cause => rfl
          | ok pointers =>
              simp only [List.nil_append, behind?_eq (by omega : (entries + 1) * 4 ≤
                (rest.take (rest.length - rows * 4)).length), dropped, Option.bind_some]
              rfl

end Strings

/-- No access of the guarded decoder fails, whatever the output held before, and its result is that
of the plain one. -/
theorem decode_eq (scheme : Scheme) (type : ColumnType) {rows : Nat} (payload prior : Bytes)
    (small : rows ≤ maxWord) :
    decode scheme type rows payload prior = some (Payload.decode scheme type rows payload) := by
  have empty : cleared prior = [] := List.take_zero
  have slots (width : Nat) (narrow : width ≤ 8) :
      copySlots width rows payload [] = some (decodeSlots width rows payload) := by
    have product : product? rows width = some (rows * width) := by
      apply product?_eq
      have most : rows * width ≤ maxWord * 8 := Nat.mul_le_mul small narrow
      simp only [maxWord, addressable] at most ⊢
      omega
    simp only [copySlots, product, Option.bind_eq_bind, Option.bind_some, decodeSlots, ne_eq,
      ite_not, List.nil_append]
    split <;> rfl
  have oneSlot (width : Nat) :
      repeatSlot width rows payload [] = some (decodeOneSlot width rows payload) := by
    simp only [repeatSlot, decodeOneSlot, ne_eq, ite_not, appendRepeated_eq, List.nil_append]
    split <;> rfl
  have strings : copyStrings rows payload [] =
      some (Payload.decode .uncompressed .string rows payload) := by
    rw [copyStrings, checkStringArray_eq payload small, Payload.decode]
    cases StringArray.decode rows payload <;> rfl
  unfold decode
  rw [empty]
  cases scheme with
  | uncompressed =>
      cases type with
      | integer => exact slots 4 (by decide)
      | double => exact slots 8 (by decide)
      | string => exact strings
      | skip => rfl
  | oneValue =>
      cases type with
      | integer => exact oneSlot 4
      | double => exact oneSlot 8
      | string => exact repeatString_eq rows payload
      | skip => rfl
  | runLength =>
      cases type with
      | integer => exact decodeRuns_eq small (by decide)
      | double => exact decodeRuns_eq small (by decide)
      | string => rfl
      | skip => rfl
  | dictionary =>
      cases type with
      | string => exact decodeDictionary_eq payload small
      | integer => rfl
      | double => rfl
      | skip => rfl

end Columnar.Payload.Guarded
