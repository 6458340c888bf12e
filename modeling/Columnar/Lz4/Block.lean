import Columnar.Bytes

namespace Columnar.Lz4

/-!
The LZ4 block format.

A block stands for a byte string as a list of steps: bytes to append as they are, and copies of
bytes already written.  `serialize` writes sequences of a literal run and a copy, closed by a
literal run; `parse` reads a block back as steps, together with the fault that it ends in, if
any; `execute` carries steps out within a declared size.
-/

/-- Why a block cannot be expanded. -/
inductive Fault where
  | inputEnded
  | literalsPastInput
  | outputTooSmall (declared needed : Nat)
  | zeroOffset
  | offsetBeforeStart
deriving DecidableEq, Repr

def Fault.message : Fault → String
  | .inputEnded => "expected another byte, found none"
  | .literalsPastInput => "literal is out of bounds of the input"
  | .outputTooSmall declared needed =>
      "provided output is too small for the decompressed data, " ++
        s!"actual {declared}, expected {needed}"
  | .zeroOffset => "0 is not a valid match offset"
  | .offsetBeforeStart => "the offset to copy is not contained in the decompressed buffer"

/-- A literal run and the copy that follows it, `offset` bytes back and at least four bytes long. -/
structure Sequence where
  literals : Bytes
  offset : Nat
  length : Nat

/-- Sequences, closed by a literal run. -/
structure Block where
  sequences : List Sequence
  last : Bytes

/-- The shortest copy that the format can express. -/
def minimumMatch : Nat := 4

/-- What is left of a length after the four bits of a token: bytes of 255 and a smaller last one. -/
def extensionBytes (length : Nat) : Bytes :=
  if length < 15 then []
  else List.replicate ((length - 15) / 255) 255 ++ [UInt8.ofNat ((length - 15) % 255)]

def token (literals copied : Nat) : UInt8 := UInt8.ofNat (min literals 15 * 16 + min copied 15)

def Sequence.serialize (sequence : Sequence) : Bytes :=
  let literals := sequence.literals.length
  let copied := sequence.length - minimumMatch
  token literals copied :: extensionBytes literals ++ sequence.literals ++
    Bytes.ofNat 2 sequence.offset ++ extensionBytes copied

def Block.serialize (block : Block) : Bytes :=
  let literals := block.last.length
  block.sequences.flatMap Sequence.serialize ++
    (token literals 0 :: extensionBytes literals ++ block.last)

/-- What a decoder does next. -/
inductive Step where
  | append (literals : Bytes)
  | copy (offset length : Nat)

/-- The steps of a block, and the fault behind the last of them. -/
structure Parsed where
  steps : List Step
  ending : Option Fault

/-- Reads the rest of a length whose token bits are full: all bytes up to the first below 255. -/
def readExtension? (length : Nat) : Bytes → Option (Nat × Bytes)
  | [] => none
  | byte :: rest =>
      if byte = 255 then readExtension? (length + 255) rest else some (length + byte.toNat, rest)

/-- The length that four bits of a token announce. -/
def readLength? (bits : Nat) (input : Bytes) : Option (Nat × Bytes) :=
  if bits = 15 then readExtension? 15 input else some (bits, input)

theorem readExtension?_shorter {length result : Nat} {input rest : Bytes}
    (read : readExtension? length input = some (result, rest)) : rest.length < input.length := by
  induction input generalizing length with
  | nil => simp [readExtension?] at read
  | cons byte tail ih =>
      unfold readExtension? at read
      split at read
      · exact Nat.lt_succ_of_lt (ih read)
      · simp only [Option.some.injEq, Prod.mk.injEq] at read
        simp [← read.2]

theorem readLength?_not_longer {bits result : Nat} {input rest : Bytes}
    (read : readLength? bits input = some (result, rest)) : rest.length ≤ input.length := by
  unfold readLength? at read
  split at read
  · exact Nat.le_of_lt (readExtension?_shorter read)
  · simp only [Option.some.injEq, Prod.mk.injEq] at read
    simp [← read.2]

/-- Reads a block, `before` holding the steps found so far in reverse. -/
def parseOnto (before : List Step) : Bytes → Parsed
  | [] => ⟨before.reverse, some .inputEnded⟩
  | token :: input =>
      match _literalLength : readLength? (token.toNat / 16) input with
      | none => ⟨before.reverse, some .inputEnded⟩
      | some (count, afterLength) =>
          let literals := afterLength.take count
          if literals.length < count then ⟨before.reverse, some .literalsPastInput⟩
          else
            let before := .append literals :: before
            match _following : afterLength.drop count with
            | [] => ⟨before.reverse, none⟩
            | [_] => ⟨before.reverse, some .inputEnded⟩
            | low :: high :: afterOffset =>
                let offset := low.toNat + 256 * high.toNat
                if offset = 0 then ⟨before.reverse, some .zeroOffset⟩
                else
                  match _matchLength : readLength? (token.toNat % 16) afterOffset with
                  | none => ⟨before.reverse, some .inputEnded⟩
                  | some (copied, rest) =>
                      parseOnto (.copy offset (copied + minimumMatch) :: before) rest
termination_by input => input.length
decreasing_by
  have first := readLength?_not_longer _literalLength
  have last := readLength?_not_longer _matchLength
  have dropped := congrArg List.length _following
  simp only [List.length_drop, List.length_cons] at dropped first last ⊢
  omega

def parse (input : Bytes) : Parsed := parseOnto [] input

/-- Appends `length` bytes, each one equal to the byte `offset` places before it. -/
def copyBack (offset : Nat) : Nat → Array UInt8 → Array UInt8
  | 0, output => output
  | length + 1, output =>
      copyBack offset length (output.push (output[output.size - offset]?.getD 0))

/-- Carries out one step, if the declared size has room for it. -/
def Step.run (declared : Nat) (output : Array UInt8) : Step → Except Fault (Array UInt8)
  | .append literals =>
      let needed := output.size + literals.length
      if declared < needed then .error (.outputTooSmall declared needed)
      else .ok (output ++ literals)
  | .copy offset length =>
      let needed := output.size + length
      if declared < needed then .error (.outputTooSmall declared needed)
      else if output.size < offset then .error .offsetBeforeStart
      else .ok (copyBack offset length output)

def execute (declared : Nat) : List Step → Array UInt8 → Except Fault (Array UInt8)
  | [], output => .ok output
  | step :: rest, output =>
      match step.run declared output with
      | .ok next => execute declared rest next
      | .error fault => .error fault

/-- Expands a block whose size is declared in front of it.  The result may be shorter than
declared. -/
def decompress (input : Bytes) : Except Fault Bytes :=
  match Bytes.takeNat? 4 input with
  | none => .error .inputEnded
  | some (declared, block) =>
      let parsed := parse block
      match execute declared parsed.steps #[] with
      | .error fault => .error fault
      | .ok output =>
          match parsed.ending with
          | some fault => .error fault
          | none => .ok output.toList

end Columnar.Lz4
