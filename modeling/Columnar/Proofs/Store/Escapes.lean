import Columnar.Store.Location

namespace Columnar

/-!
Percent escapes.

An escape is longer than the character that it stands for, so a text that is no longer after
escaping has not been changed.
-/

/-- Whether a character is written as it is when the given ones are reserved. -/
def Unescaped (reserved : List Char) (char : Char) : Prop :=
  0x20 ≤ char.toNat ∧ char.toNat < 0x7F ∧ char ∉ reserved

instance (reserved : List Char) (char : Char) : Decidable (Unescaped reserved char) :=
  inferInstanceAs (Decidable (0x20 ≤ char.toNat ∧ char.toNat < 0x7F ∧ char ∉ reserved))

section Encoding

variable {reserved chars : List Char} {char : Char}

theorem percentEncode_nil : percentEncode reserved [] = [] := rfl

theorem percentEncode_append (front back : List Char) :
    percentEncode reserved (front ++ back) =
      percentEncode reserved front ++ percentEncode reserved back :=
  List.flatMap_append

theorem percentEncode_unescaped (unescaped : Unescaped reserved char) :
    percentEncode reserved [char] = [char] := by
  obtain ⟨low, high, free⟩ := unescaped
  have kept : ¬ (char.toNat < 0x20 ∨ 0x7F ≤ char.toNat ∨ char ∈ reserved) := by
    rintro (below | above | held)
    · omega
    · omega
    · exact free held
  simp only [percentEncode, List.flatMap_singleton, if_neg kept]

theorem encode_singleton_ne_nil (char : Char) : Text.encode (String.ofList [char]) ≠ [] := by
  intro none
  have whole := Text.decode_encode (String.ofList [char])
  rw [none] at whole
  have empty : Text.decode [] = .ok "" := Text.decode_encode ""
  rw [empty] at whole
  have same := congrArg String.toList (Except.ok.inj whole)
  simp at same

/-- Any other character is written as the escapes of its bytes. -/
theorem percentEncode_bytes (escaped : ¬ Unescaped reserved char) :
    percentEncode reserved [char] =
      (Text.encode (String.ofList [char])).flatMap percentEscape := by
  have held : char.toNat < 0x20 ∨ 0x7F ≤ char.toNat ∨ char ∈ reserved := by
    by_cases member : char ∈ reserved
    · exact .inr (.inr member)
    rcases Nat.lt_or_ge char.toNat 0x20 with low | low
    · exact .inl low
    rcases Nat.lt_or_ge char.toNat 0x7F with high | high
    · exact absurd ⟨low, high, member⟩ escaped
    · exact .inr (.inl high)
  simp only [percentEncode, List.flatMap_singleton, if_pos held]

/-- An escaped character gives at least the three characters of an escape. -/
theorem percentEncode_escaped (escaped : ¬ Unescaped reserved char) :
    ∃ byte rest, percentEncode reserved [char] = percentEscape byte ++ rest := by
  obtain ⟨byte, rest, bytes⟩ := List.exists_cons_of_ne_nil (encode_singleton_ne_nil char)
  refine ⟨byte, rest.flatMap percentEscape, ?_⟩
  rw [percentEncode_bytes escaped, bytes, List.flatMap_cons]

theorem percentEncode_cons (char : Char) (rest : List Char) :
    percentEncode reserved (char :: rest) =
      percentEncode reserved [char] ++ percentEncode reserved rest :=
  percentEncode_append [char] rest

theorem length_le_percentEncode (reserved chars : List Char) :
    chars.length ≤ (percentEncode reserved chars).length := by
  induction chars with
  | nil => exact Nat.le_refl 0
  | cons char rest ih =>
      rw [percentEncode_cons, List.length_append, List.length_cons]
      by_cases unescaped : Unescaped reserved char
      · rw [percentEncode_unescaped unescaped, List.length_singleton]
        omega
      · obtain ⟨byte, more, encoded⟩ := percentEncode_escaped unescaped
        rw [encoded, List.length_append, percentEscape]
        simp only [List.length_cons, List.length_nil]
        omega

/-- The characters that escapes are made of. -/
def escapeAlphabet : List Char := "%0123456789ABCDEF".toList

theorem mem_percentEscape {byte : UInt8} (member : char ∈ percentEscape byte) :
    char ∈ escapeAlphabet := by
  have digits : ∀ value < 16,
      Char.ofNat (if value < 10 then '0'.toNat + value else 'A'.toNat + (value - 10)) ∈
        escapeAlphabet := by
    decide
  have size := byte.toNat_lt
  simp only [percentEscape, List.mem_cons, List.not_mem_nil, or_false] at member
  rcases member with rfl | rfl | rfl
  · decide
  · exact digits (byte.toNat / 16) (by omega)
  · exact digits (byte.toNat % 16) (by omega)

theorem mem_percentEncode (member : char ∈ percentEncode reserved chars) :
    char ∈ chars ∨ char ∈ escapeAlphabet := by
  obtain ⟨source, inside, encoded⟩ := List.mem_flatMap.mp member
  split at encoded
  · obtain ⟨byte, -, escaped⟩ := List.mem_flatMap.mp encoded
    exact .inr (mem_percentEscape escaped)
  · rw [List.mem_singleton.mp encoded]
    exact .inl inside

/-- Escaping changes nothing exactly when no character needs it. -/
theorem percentEncode_eq_self_iff :
    percentEncode reserved chars = chars ↔ ∀ char ∈ chars, Unescaped reserved char := by
  induction chars with
  | nil => simp [percentEncode_nil]
  | cons char rest ih =>
      rw [percentEncode_cons, List.forall_mem_cons]
      by_cases unescaped : Unescaped reserved char
      · rw [percentEncode_unescaped unescaped, List.singleton_append, List.cons.injEq, ih]
        simp only [unescaped, true_and]
      · refine iff_of_false (fun same => ?_) fun all => unescaped all.1
        obtain ⟨byte, more, encoded⟩ := percentEncode_escaped unescaped
        have lengths := congrArg List.length same
        have kept := length_le_percentEncode reserved rest
        rw [encoded] at lengths
        simp only [List.length_append, List.length_cons, List.length_nil, percentEscape] at lengths
        omega

end Encoding

section Twice

variable {inner outer : List Char} {char : Char}

theorem length_percentEscapes (bytes : Bytes) :
    (bytes.flatMap percentEscape).length = 3 * bytes.length := by
  induction bytes with
  | nil => rfl
  | cons byte rest ih =>
      rw [List.flatMap_cons, List.length_append, ih, List.length_cons, percentEscape]
      simp only [List.length_cons, List.length_nil]
      omega

/-- The mark of an escape is escaped by an escape of its own. -/
theorem length_encoded_percentEscapes (percent : '%' ∈ outer) (bytes : Bytes) :
    5 * bytes.length ≤ (percentEncode outer (bytes.flatMap percentEscape)).length := by
  have mark : 3 ≤ (percentEncode outer ['%']).length := by
    obtain ⟨byte, rest, encoded⟩ :=
      @percentEncode_escaped outer '%' fun unescaped => unescaped.2.2 percent
    rw [encoded, List.length_append, percentEscape]
    simp only [List.length_cons, List.length_nil]
    omega
  induction bytes with
  | nil => exact Nat.zero_le _
  | cons byte rest ih =>
      have digits := length_le_percentEncode outer (percentEscape byte).tail
      have whole : percentEscape byte = '%' :: (percentEscape byte).tail := rfl
      have two : (percentEscape byte).tail.length = 2 := rfl
      rw [List.flatMap_cons, percentEncode_append, whole, percentEncode_cons]
      simp only [List.length_append, List.length_cons]
      omega

/-- A character that is escaped twice is written longer than one that is escaped once. -/
theorem length_percentEncode_lt (percent : '%' ∈ outer) (escaped : ¬ Unescaped inner char) :
    (percentEncode outer [char]).length <
      (percentEncode outer (percentEncode inner [char])).length := by
  have twice := length_encoded_percentEscapes percent (Text.encode (String.ofList [char]))
  have some := List.length_pos_iff.mpr (encode_singleton_ne_nil char)
  rw [percentEncode_bytes escaped]
  by_cases kept : Unescaped outer char
  · rw [percentEncode_unescaped kept, List.length_singleton]
    omega
  · rw [percentEncode_bytes kept, length_percentEscapes]
    omega

theorem length_percentEncode_le_twice (percent : '%' ∈ outer) (chars : List Char) :
    (percentEncode outer chars).length ≤
      (percentEncode outer (percentEncode inner chars)).length := by
  induction chars with
  | nil => exact Nat.le_refl _
  | cons char rest ih =>
      rw [percentEncode_cons, @percentEncode_cons inner, percentEncode_append, List.length_append,
        List.length_append]
      by_cases unescaped : Unescaped inner char
      · rw [percentEncode_unescaped unescaped]
        omega
      · have longer := length_percentEncode_lt percent unescaped
        omega

/-- Where escapes are escaped, escaping first for another purpose changes nothing exactly when that
has nothing to escape. -/
theorem percentEncode_twice_iff (percent : '%' ∈ outer) {chars : List Char} :
    percentEncode outer (percentEncode inner chars) = percentEncode outer chars ↔
      ∀ char ∈ chars, Unescaped inner char := by
  induction chars with
  | nil => simp [percentEncode_nil]
  | cons char rest ih =>
      rw [@percentEncode_cons inner, percentEncode_append, @percentEncode_cons outer char rest,
        List.forall_mem_cons]
      by_cases unescaped : Unescaped inner char
      · rw [percentEncode_unescaped unescaped, List.append_cancel_left_eq, ih]
        simp only [unescaped, true_and]
      · refine iff_of_false (fun same => ?_) fun all => unescaped all.1
        have longer := length_percentEncode_lt percent unescaped
        have others := @length_percentEncode_le_twice inner outer percent rest
        have lengths := congrArg List.length same
        rw [List.length_append, List.length_append] at lengths
        omega

end Twice

namespace Location

/-- A segment that is not made of dots is escaped character by character. -/
theorem encodeSegment_of_ne {segment : List Char} (dot : segment ≠ ['.'])
    (dots : segment ≠ ['.', '.']) :
    encodeSegment segment = String.ofList (percentEncode reserved segment) := by
  rw [encodeSegment, if_neg dot, if_neg dots]

/-- A segment that is written in a location as it is in a path. -/
def Literal (segment : List Char) : Prop :=
  segment ≠ ['.'] ∧ segment ≠ ['.', '.'] ∧ ∀ char ∈ segment, Unescaped reserved char

theorem encodeSegment_eq_self_iff {segment : List Char} :
    encodeSegment segment = String.ofList segment ↔ Literal segment := by
  unfold encodeSegment Literal
  by_cases dot : segment = ['.']
  · subst dot
    simp
  by_cases dots : segment = ['.', '.']
  · subst dots
    simp
  · rw [if_neg dot, if_neg dots, String.ofList_inj, percentEncode_eq_self_iff]
    exact ⟨fun all => ⟨dot, dots, all⟩, fun literal => literal.2.2⟩

end Location

end Columnar
