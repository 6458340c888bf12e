import Columnar.Bytes

namespace Columnar.Text

/-!
Text as bytes, and the place where bytes stop being text.

`encode` and `decode` pass between strings and UTF-8.  When bytes are not UTF-8, `decode` names the
fault by the number of well-formed bytes in front of it and by the length of the ill-formed
sequence, which is unknown when the bytes end in the middle of a character.
-/

/-- Why a byte string is not UTF-8: so many bytes are well formed, then an ill-formed sequence of
known length follows, or the bytes end inside a character. -/
inductive Utf8Fault where
  | invalid (validPrefix length : Nat)
  | incomplete (validPrefix : Nat)
deriving DecidableEq, Repr

namespace Utf8Fault

def validPrefix : Utf8Fault → Nat
  | .invalid count _ => count
  | .incomplete count => count

def message : Utf8Fault → String
  | .invalid count length => s!"invalid utf-8 sequence of {length} bytes from index {count}"
  | .incomplete count => s!"incomplete utf-8 byte sequence from index {count}"

end Utf8Fault

/-- What the first byte of a character demands: how many bytes follow it, and which values the
first of them may take.  All later ones lie between 128 and 191. -/
structure Lead where
  following : Nat
  lower : UInt8
  upper : UInt8

/-- The demands of a first byte above 127, if a character can start with it. -/
def Lead.ofByte? (byte : UInt8) : Option Lead :=
  if 0xC2 ≤ byte ∧ byte ≤ 0xDF then some ⟨1, 0x80, 0xBF⟩
  else if byte = 0xE0 then some ⟨2, 0xA0, 0xBF⟩
  else if byte = 0xED then some ⟨2, 0x80, 0x9F⟩
  else if 0xE1 ≤ byte ∧ byte ≤ 0xEF then some ⟨2, 0x80, 0xBF⟩
  else if byte = 0xF0 then some ⟨3, 0x90, 0xBF⟩
  else if byte = 0xF4 then some ⟨3, 0x80, 0x8F⟩
  else if 0xF1 ≤ byte ∧ byte ≤ 0xF3 then some ⟨3, 0x80, 0xBF⟩
  else none

/-- Where a scan stands: between characters, or inside one that still needs `needed + 1` bytes after
the `seen` already read, the next of them within the given bounds. -/
inductive ScanState where
  | boundary
  | inside (seen needed : Nat) (lower upper : UInt8)

/-- Scans bytes from the given state; `count` bytes of whole characters lie behind. -/
def findFault? : ScanState → Nat → Bytes → Option Utf8Fault
  | .boundary, _, [] => none
  | .inside .., count, [] => some (.incomplete count)
  | .boundary, count, byte :: rest =>
      if byte < 0x80 then findFault? .boundary (count + 1) rest
      else match Lead.ofByte? byte with
        | none => some (.invalid count 1)
        | some lead => findFault? (.inside 1 (lead.following - 1) lead.lower lead.upper) count rest
  | .inside seen needed lower upper, count, byte :: rest =>
      if lower ≤ byte ∧ byte ≤ upper then
        match needed with
        | 0 => findFault? .boundary (count + seen + 1) rest
        | needed + 1 => findFault? (.inside (seen + 1) needed 0x80 0xBF) count rest
      else some (.invalid count seen)

/-- The first fault of a byte string that is not UTF-8. -/
def fault (bytes : Bytes) : Utf8Fault :=
  (findFault? .boundary 0 bytes).getD (.incomplete bytes.length)

def encode (text : String) : Bytes := text.toByteArray.data.toList

def decode (bytes : Bytes) : Except Utf8Fault String :=
  match String.fromUTF8? ⟨bytes.toArray⟩ with
  | some text => .ok text
  | none => .error (fault bytes)

theorem decode_encode (text : String) : decode (encode text) = .ok text := by
  have whole : (⟨(encode text).toArray⟩ : ByteArray) = text.toByteArray := rfl
  have valid : text.toByteArray.IsValidUTF8 := text.isValidUTF8
  simp only [decode, whole, String.fromUTF8?, valid, dif_pos]
  rfl

theorem encode_of_decode {bytes : Bytes} {text : String} (decoded : decode bytes = .ok text) :
    encode text = bytes := by
  unfold decode String.fromUTF8? at decoded
  split at decoded
  · rename_i found
    split at found
    · cases decoded
      cases found
      rfl
    · contradiction
  · contradiction

end Columnar.Text
