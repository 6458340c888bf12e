import Columnar.Decimal.Integer
import Columnar.Double.Shortest

namespace Columnar.Decimal

/-!
Numbers as texts.

A number is written in digits, signs and points and a few letters, so nothing that separates fields
or lines stands in it.  A whole number is read back from its text.
-/

section Digits

variable {char : Char} {chars : List Char} {limit value : Nat}

theorem isDigit_bounds (digit : char.isDigit = true) : 48 ≤ char.toNat ∧ char.toNat ≤ 57 := by
  simpa [Char.isDigit, UInt32.le_iff_toNat_le] using digit

/-- A set of characters with all ten digits has every digit. -/
theorem mem_of_isDigit {alphabet : List Char}
    (all : ∀ value ∈ List.range' 48 10, Char.ofNat value ∈ alphabet)
    (digit : char.isDigit = true) : char ∈ alphabet := by
  have bounds := isDigit_bounds digit
  have member := all char.toNat (List.mem_range'_1.mpr (by omega))
  rwa [Char.ofNat_toNat] at member

theorem isDigit_of_mem (member : char ∈ Nat.toDigits 10 value) : char.isDigit = true :=
  Nat.isDigit_of_mem_toDigits (by decide) (by decide) member

theorem digit?_of_isDigit (digit : char.isDigit = true) :
    digit? char = some (char.toNat - '0'.toNat) := by
  obtain ⟨low, high⟩ := isDigit_bounds digit
  have inside : '0' ≤ char ∧ char ≤ '9' := by
    simp only [Char.le_def, UInt32.le_iff_toNat_le]
    exact ⟨low, high⟩
  rw [digit?, if_pos inside]

theorem le_ofDigitChars (chars : List Char) (value : Nat) :
    value ≤ Nat.ofDigitChars 10 chars value := by
  rw [Nat.ofDigitChars_eq_ofDigitChars_zero]
  have power : 1 ≤ 10 ^ chars.length := Nat.one_le_pow _ _ (by decide)
  have scaled := Nat.le_mul_of_pos_left value power
  omega

/-- Digits continue a number as long as the whole stays within the limit. -/
theorem extend_digits (overflow : Fault) (digits : ∀ char ∈ chars, char.isDigit = true)
    (within : Nat.ofDigitChars 10 chars value ≤ limit) :
    extend limit overflow value chars = .ok (Nat.ofDigitChars 10 chars value) := by
  induction chars generalizing value with
  | nil => rfl
  | cons char rest ih =>
      obtain ⟨first, later⟩ := List.forall_mem_cons.mp digits
      rw [Nat.ofDigitChars_cons] at within ⊢
      have next := Nat.le_trans (le_ofDigitChars rest _) within
      rw [extend, digit?_of_isDigit first]
      dsimp only
      rw [if_pos next, ih later within]

theorem readDigits_toDigits (overflow : Fault) (within : value ≤ limit) :
    readDigits limit overflow (Nat.toDigits 10 value) = .ok value := by
  have whole : Nat.ofDigitChars 10 (Nat.toDigits 10 value) 0 = value :=
    Nat.ofDigitChars_ten_toDigits
  obtain ⟨first, rest, digits⟩ := List.exists_cons_of_ne_nil (@Nat.toDigits_ne_nil value 10)
  have read := @extend_digits (Nat.toDigits 10 value) limit 0 overflow
    (fun char member => isDigit_of_mem member) (by rwa [whole])
  rw [whole] at read
  rw [digits] at read ⊢
  exact read

end Digits

section Integers

theorem toList_ofInt32 (value : Int32) :
    (ofInt32 value).toList =
      if 0 ≤ value.toInt then Nat.toDigits 10 value.toInt.toNat
      else '-' :: Nat.toDigits 10 (-value.toInt).toNat := by
  rw [ofInt32, Int.toString_eq_repr, Int.repr_eq_if]
  split
  · rw [Nat.repr_eq_ofList_toDigits, String.toList_ofList]
  · have sign : "-".toList = ['-'] := rfl
    rw [Nat.repr_eq_ofList_toDigits, String.toList_append, sign, String.toList_ofList,
      List.singleton_append]

theorem readInt32_unsigned {text : String} {first : Char} {rest : List Char}
    (chars : text.toList = first :: rest) (number : first.isDigit = true) :
    readInt32 text = (do
      let magnitude ← readDigits 2147483647 .tooLarge (first :: rest)
      return Int32.ofInt magnitude) := by
  unfold readInt32
  rw [chars]
  split
  · rename_i same
    cases same
    contradiction
  · rename_i same
    cases same
    contradiction
  · rfl

/-- Every 32-bit number is read back from its text. -/
theorem readInt32_ofInt32 (value : Int32) : readInt32 (ofInt32 value) = .ok value := by
  have low := value.le_toInt
  have high := value.toInt_lt
  have chars := toList_ofInt32 value
  by_cases sign : 0 ≤ value.toInt
  · rw [if_pos sign] at chars
    have read := @readDigits_toDigits 2147483647 value.toInt.toNat .tooLarge (by omega)
    obtain ⟨first, rest, digits⟩ :=
      List.exists_cons_of_ne_nil (@Nat.toDigits_ne_nil value.toInt.toNat 10)
    have number : first.isDigit = true := by
      refine @isDigit_of_mem first value.toInt.toNat ?_
      rw [digits]
      exact List.mem_cons_self
    have back : Int32.ofInt value.toInt.toNat = value := by
      rw [Int.toNat_of_nonneg sign, Int32.ofInt_toInt]
    rw [digits] at chars read
    rw [readInt32_unsigned chars number, read]
    exact congrArg Except.ok back
  · rw [if_neg sign] at chars
    have read := @readDigits_toDigits 2147483648 (-value.toInt).toNat .tooSmall (by omega)
    have back : Int32.ofInt (-((-value.toInt).toNat : Int)) = value := by
      rw [Int.toNat_of_nonneg (by omega), Int.neg_neg, Int32.ofInt_toInt]
    simp only [readInt32, chars, read, bind, Except.bind, pure, Except.pure, back]

end Integers

/-- The characters that numbers are written with. -/
def alphabet : List Char := "0123456789-.NaNinf".toList

theorem toDigits_mem {char : Char} {value : Nat} (member : char ∈ Nat.toDigits 10 value) :
    char ∈ alphabet :=
  mem_of_isDigit (by decide) (isDigit_of_mem member)

theorem ofInt32_mem {char : Char} {value : Int32} (member : char ∈ (ofInt32 value).toList) :
    char ∈ alphabet := by
  rw [toList_ofInt32] at member
  split at member
  · exact toDigits_mem member
  · rcases List.mem_cons.mp member with rfl | digit
    · decide
    · exact toDigits_mem digit

theorem digits_mem {char : Char} {value : Double.Digits} (member : char ∈ value.text.toList) :
    char ∈ alphabet := by
  have zero {count : Nat} (inside : char ∈ List.replicate count '0') : char ∈ alphabet := by
    rw [List.eq_of_mem_replicate inside]
    decide
  rw [Double.Digits.text] at member
  dsimp only at member
  split at member
  · rw [String.toList_ofList, List.mem_append] at member
    exact member.elim toDigits_mem zero
  · rw [String.toList_ofList, List.mem_append, List.mem_cons] at member
    have padded (places : Nat)
        (inside : char ∈ List.replicate places '0' ++ Nat.toDigits 10 value.digits) :
        char ∈ alphabet :=
      (List.mem_append.mp inside).elim zero toDigits_mem
    rcases member with whole | rfl | fraction
    · exact padded _ (List.mem_of_mem_take whole)
    · decide
    · exact padded _ (List.mem_of_mem_drop fraction)

theorem double_mem {char : Char} {value : Double} (member : char ∈ value.text.toList) :
    char ∈ alphabet := by
  have noNumber : "NaN".toList ⊆ alphabet := by decide
  have minus : "-".toList ⊆ alphabet := by decide
  have infinite : "inf".toList ⊆ alphabet := by decide
  have zero : "0".toList ⊆ alphabet := by decide
  rw [Double.text] at member
  split at member
  · exact noNumber member
  · dsimp only at member
    rw [String.toList_append, List.mem_append] at member
    rcases member with sign | body
    · split at sign
      · exact minus sign
      · exact absurd sign List.not_mem_nil
    · split at body
      · exact infinite body
      split at body
      · exact zero body
      · exact digits_mem body

end Columnar.Decimal
