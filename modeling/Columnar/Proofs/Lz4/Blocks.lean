import Columnar.Lz4.Block
import Columnar.Proofs.Bytes.Reading

namespace Columnar.Lz4

/-!
Blocks are parsed back and carried out.

A serialized block parses into its own steps.  `Stands` says that a block stands for some data:
each literal run is the data at its place, and each copy agrees with the data it lies behind.
Carrying out the steps of such a block writes the data from front to back.
-/

theorem readExtension?_written (length full : Nat) {last : Nat} (rest : Bytes)
    (small : last < 255) :
    readExtension? length (List.replicate full 255 ++ [UInt8.ofNat last] ++ rest) =
      some (length + 255 * full + last, rest) := by
  induction full generalizing length with
  | zero =>
      have value : (UInt8.ofNat last).toNat = last := by
        rw [UInt8.toNat_ofNat']
        omega
      have notFull : UInt8.ofNat last ≠ 255 := by
        intro same
        have number := congrArg UInt8.toNat same
        rw [value] at number
        have ending : (255 : UInt8).toNat = 255 := rfl
        omega
      simp only [List.replicate_zero, List.nil_append, List.singleton_append, readExtension?,
        if_neg notFull, value]
      rw [Nat.mul_zero, Nat.add_zero]
  | succ full ih =>
      simp only [List.replicate_succ, List.cons_append, readExtension?, if_true]
      rw [ih (length + 255)]
      congr 2
      omega

theorem readLength?_written (length : Nat) (rest : Bytes) :
    readLength? (min length 15) (extensionBytes length ++ rest) = some (length, rest) := by
  by_cases short : length < 15
  · have bits : min length 15 = length := Nat.min_eq_left (by omega)
    rw [readLength?, extensionBytes, if_pos short, bits, if_neg (by omega), List.nil_append]
  · have bits : min length 15 = 15 := Nat.min_eq_right (by omega)
    have whole : 15 + 255 * ((length - 15) / 255) + (length - 15) % 255 = length := by omega
    rw [readLength?, extensionBytes, if_neg short, bits, if_pos rfl,
      readExtension?_written _ _ _ (Nat.mod_lt _ (by decide)), whole]

theorem token_toNat (literals copied : Nat) :
    (token literals copied).toNat = min literals 15 * 16 + min copied 15 := by
  rw [token, UInt8.toNat_ofNat']
  omega

theorem token_literals (literals copied : Nat) :
    (token literals copied).toNat / 16 = min literals 15 := by
  rw [token_toNat]
  omega

theorem token_copied (literals copied : Nat) :
    (token literals copied).toNat % 16 = min copied 15 := by
  rw [token_toNat]
  omega

/-- What the format can write: the offset is not zero and fits two bytes, and the copy is as long as
the shortest one. -/
structure Sequence.Encodable (sequence : Sequence) : Prop where
  positive : 0 < sequence.offset
  near : sequence.offset ≤ 65535
  long : minimumMatch ≤ sequence.length

def Sequence.steps (sequence : Sequence) : List Step :=
  [.append sequence.literals, .copy sequence.offset sequence.length]

theorem offset_written {offset : Nat} (near : offset ≤ 65535) (rest : Bytes) :
    ∃ low high : UInt8, Bytes.ofNat 2 offset ++ rest = low :: high :: rest ∧
      low.toNat + 256 * high.toNat = offset := by
  refine ⟨UInt8.ofNat offset, UInt8.ofNat (offset / 256), rfl, ?_⟩
  rw [UInt8.toNat_ofNat', UInt8.toNat_ofNat']
  omega

theorem parseOnto_sequence {sequence : Sequence} (encodable : sequence.Encodable)
    (before : List Step) (rest : Bytes) :
    parseOnto before (sequence.serialize ++ rest) =
      parseOnto (sequence.steps.reverse ++ before) rest := by
  obtain ⟨positive, near, long⟩ := encodable
  let copied := sequence.length - minimumMatch
  obtain ⟨low, high, offset, value⟩ := offset_written near (extensionBytes copied ++ rest)
  have written : sequence.serialize ++ rest = token sequence.literals.length copied ::
      (extensionBytes sequence.literals.length ++
        (sequence.literals ++ low :: high :: (extensionBytes copied ++ rest))) := by
    rw [← offset]
    simp only [Sequence.serialize, copied, List.cons_append, List.append_assoc]
  have first := readLength?_written sequence.literals.length
    (sequence.literals ++ low :: high :: (extensionBytes copied ++ rest))
  have second := readLength?_written copied rest
  have length : copied + minimumMatch = sequence.length := Nat.sub_add_cancel long
  rw [← token_literals _ copied] at first
  rw [← token_copied sequence.literals.length] at second
  rw [written, parseOnto]
  split
  · rename_i missing
    rw [first] at missing
    contradiction
  rename_i count after found
  rw [first] at found
  cases found
  rw [List.take_left, List.drop_left, if_neg (Nat.lt_irrefl _)]
  simp only [value, if_neg (Nat.pos_iff_ne_zero.mp positive)]
  split
  · rename_i missing
    rw [second] at missing
    contradiction
  rename_i size behind found
  rw [second] at found
  cases found
  rw [length]
  rfl

theorem parseOnto_last (before : List Step) (last : Bytes) :
    parseOnto before (token last.length 0 :: extensionBytes last.length ++ last) =
      ⟨(.append last :: before).reverse, none⟩ := by
  have first := readLength?_written last.length last
  rw [← token_literals _ 0] at first
  rw [List.cons_append, parseOnto]
  split
  · rename_i missing
    rw [first] at missing
    contradiction
  rename_i count after found
  rw [first] at found
  cases found
  have all : last.take last.length = last := List.take_length
  have none : last.drop last.length = [] := List.drop_length
  rw [all, if_neg (Nat.lt_irrefl _)]
  split
  · rfl
  · rename_i left
    rw [none] at left
    contradiction
  · rename_i left
    rw [none] at left
    contradiction

def Block.steps (block : Block) : List Step :=
  block.sequences.flatMap Sequence.steps ++ [.append block.last]

/-- A serialized block parses into its steps and ends properly. -/
theorem parse_serialize {block : Block}
    (encodable : ∀ sequence ∈ block.sequences, sequence.Encodable) :
    parse block.serialize = ⟨block.steps, none⟩ := by
  have general : ∀ (sequences : List Sequence) (before : List Step),
      (∀ sequence ∈ sequences, sequence.Encodable) →
        parseOnto before (sequences.flatMap Sequence.serialize ++
            (token block.last.length 0 :: extensionBytes block.last.length ++ block.last)) =
          ⟨before.reverse ++ sequences.flatMap Sequence.steps ++ [.append block.last], none⟩ := by
    intro sequences
    induction sequences with
    | nil =>
        intro before _
        rw [List.flatMap_nil, List.nil_append, parseOnto_last]
        simp
    | cons sequence rest ih =>
        intro before each
        rw [List.flatMap_cons, List.append_assoc, parseOnto_sequence (each sequence (by simp)),
          ih _ fun other member => each other (by simp [member])]
        simp [Sequence.steps]
  rw [parse, Block.serialize, general block.sequences [] encodable]
  rfl

/-- The bytes from a position on agree with those `offset` places before them, `length` of them. -/
structure Agrees (data : Bytes) (position offset length : Nat) : Prop where
  reach : offset ≤ position
  inside : position + length ≤ data.length
  equal : ∀ index < length, data[position + index]? = data[position + index - offset]?

/-- Sequences and a last literal run that stand for the data from a position on. -/
inductive Stands (data : Bytes) : Nat → List Sequence → Bytes → Prop
  | last {start : Nat} : Stands data start [] (data.drop start)
  | sequence {start stop offset length : Nat} {rest : List Sequence} {last : Bytes}
      (ordered : start ≤ stop)
      (encodable : Sequence.Encodable ⟨slice start stop data, offset, length⟩)
      (agrees : Agrees data stop offset length) (later : Stands data (stop + length) rest last) :
      Stands data start (⟨slice start stop data, offset, length⟩ :: rest) last

theorem Stands.encodable {data last : Bytes} {start : Nat} {sequences : List Sequence}
    (stands : Stands data start sequences last) : ∀ sequence ∈ sequences, sequence.Encodable := by
  induction stands with
  | last => simp
  | sequence ordered encodable agrees later ih =>
      intro sequence member
      rcases List.mem_cons.mp member with rfl | member
      · exact encodable
      · exact ih sequence member

/-- Copying from agreeing bytes goes on writing the data. -/
theorem copyBack_take {data : Bytes} {position offset length : Nat} (positive : 0 < offset)
    (agrees : Agrees data position offset length) {output : Array UInt8}
    (written : output.toList = data.take position) :
    (copyBack offset length output).toList = data.take (position + length) := by
  induction length generalizing position output with
  | zero => exact written
  | succ length ih =>
      obtain ⟨reach, inside, equal⟩ := agrees
      have bound : position < data.length := by omega
      have size : output.size = position := by
        rw [← Array.length_toList, written, List.length_take]
        omega
      have source : output[output.size - offset]? = data[position]? := by
        have first := equal 0 (by omega)
        rw [Nat.add_zero] at first
        rw [size, first, ← Array.getElem?_toList, written, List.getElem?_take_of_lt (by omega)]
      have next : (output.push (output[output.size - offset]?.getD 0)).toList =
          data.take (position + 1) := by
        rw [source, Array.toList_push, written, List.getElem?_eq_getElem bound, Option.getD_some,
          List.take_append_getElem bound]
      have later : Agrees data (position + 1) offset length := by
        refine ⟨by omega, by omega, ?_⟩
        intro index here
        have shifted := equal (index + 1) (by omega)
        have place : position + 1 + index = position + (index + 1) := by omega
        rw [place]
        exact shifted
      have place : position + 1 + length = position + (length + 1) := by omega
      rw [copyBack, ih later next, place]

/-- The steps of a block that stands for data write the rest of it. -/
theorem execute_stands {data last : Bytes} {start : Nat} {sequences : List Sequence}
    (stands : Stands data start sequences last) (inside : start ≤ data.length)
    {output : Array UInt8} (written : output.toList = data.take start) :
    ∃ whole, execute data.length (sequences.flatMap Sequence.steps ++ [.append last]) output =
      .ok whole ∧ whole.toList = data := by
  induction stands generalizing output with
  | last =>
      rename_i start
      have size : output.size = start := by
        rw [← Array.length_toList, written, List.length_take]
        omega
      have room : ¬ data.length < output.size + (data.drop start).length := by
        rw [List.length_drop]
        omega
      refine ⟨output ++ data.drop start, ?_, ?_⟩
      · simp only [List.flatMap_nil, List.nil_append, execute, Step.run, if_neg room]
      · rw [Array.toList_appendList, written, List.take_append_drop]
  | sequence ordered encodable agrees later ih =>
      rename_i start stop offset length rest last
      have size : output.size = start := by
        rw [← Array.length_toList, written, List.length_take]
        omega
      have bound := agrees.inside
      have literals : (slice start stop data).length = stop - start :=
        length_slice start stop data (by omega)
      have room : ¬ data.length < output.size + (slice start stop data).length := by omega
      have middle : (output ++ slice start stop data).toList = data.take stop := by
        have front := slice_append_slice data (Nat.zero_le start) ordered
        simp only [slice, Nat.sub_zero, List.drop_zero] at front
        rw [Array.toList_appendList, written, slice, front]
      have middleSize : (output ++ slice start stop data).size = stop := by
        rw [← Array.length_toList, middle, List.length_take]
        omega
      have copyRoom : ¬ data.length < (output ++ slice start stop data).size + length := by omega
      have near : ¬ (output ++ slice start stop data).size < offset := by
        have reach := agrees.reach
        omega
      have copied := copyBack_take encodable.positive agrees middle
      obtain ⟨whole, done, result⟩ := ih bound copied
      refine ⟨whole, ?_, result⟩
      simp only [List.flatMap_cons, Sequence.steps, List.cons_append, List.nil_append, execute,
        Step.run, if_neg room, if_neg copyRoom, if_neg near]
      exact done

theorem decompress_stands {data : Bytes} {block : Block} (short : data.length < Bytes.capacity 4)
    (stands : Stands data 0 block.sequences block.last) :
    decompress (Bytes.ofNat 4 data.length ++ block.serialize) = .ok data := by
  obtain ⟨whole, done, result⟩ := @execute_stands _ _ _ _ stands (Nat.zero_le _) #[] rfl
  simp only [decompress, Bytes.takeNat?_ofNat_append short, parse_serialize stands.encodable,
    Block.steps, done, result]

end Columnar.Lz4
