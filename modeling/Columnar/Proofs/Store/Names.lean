import Columnar.Catalog
import Columnar.Proofs.Decimal.Numerals
import Columnar.Proofs.Store.Escapes
import Columnar.Store.Place
import Mathlib.Data.Bool.AllAny

namespace Columnar

/-!
Names of stored files.

Names of different files differ, and a location keeps them as they are, so no file of a directory
takes the place of another.
-/

theorem toDigits_injective {left right : Nat}
    (same : Nat.toDigits 10 left = Nat.toDigits 10 right) : left = right := by
  rw [← Nat.ofDigitChars_ten_toDigits (n := left), same, Nat.ofDigitChars_ten_toDigits]

namespace StoredFile

theorem toList_name_part (column index : Nat) :
    (part column index).name.toList =
      "column".toList ++
        (Nat.toDigits 10 column ++ '_' :: ("part".toList ++ Nat.toDigits 10 index)) := by
  have word : (toString "column").toList = "column".toList := rfl
  have divider : (toString "_part").toList = '_' :: "part".toList := rfl
  simp [name, word, divider]

theorem toList_name_text (column : Nat) :
    (text column).name.toList = "column".toList ++ (Nat.toDigits 10 column ++ ".txt".toList) := by
  have word : (toString "column").toList = "column".toList := rfl
  have ending : (toString ".txt").toList = ".txt".toList := rfl
  simp [name, word, ending]

/-- A number and what follows it are told apart by the first character that is no digit. -/
theorem digits_append_inj {left right : Nat} {first second : Char} {before after : List Char}
    (noDigit : first.isDigit = false) (neither : second.isDigit = false)
    (same : Nat.toDigits 10 left ++ first :: before = Nat.toDigits 10 right ++ second :: after) :
    left = right ∧ first :: before = second :: after := by
  have front (number : Nat) {char : Char} (rest : List Char) (stop : char.isDigit = false) :
      (Nat.toDigits 10 number ++ char :: rest).takeWhile Char.isDigit = Nat.toDigits 10 number ∧
        (Nat.toDigits 10 number ++ char :: rest).dropWhile Char.isDigit = char :: rest := by
    have digits : ∀ digit ∈ Nat.toDigits 10 number, digit.isDigit = true :=
      fun digit member => Decimal.isDigit_of_mem member
    constructor
    · rw [List.takeWhile_append_of_pos digits, List.takeWhile_cons_of_neg (by simp [stop]),
        List.append_nil]
    · rw [List.dropWhile_append_of_pos digits, List.dropWhile_cons_of_neg (by simp [stop])]
  obtain ⟨leftDigits, leftRest⟩ := front left before noDigit
  obtain ⟨rightDigits, rightRest⟩ := front right after neither
  rw [same] at leftDigits leftRest
  exact ⟨toDigits_injective (leftDigits.symm.trans rightDigits), leftRest.symm.trans rightRest⟩

theorem name_injective {first second : StoredFile} (same : first.name = second.name) :
    first = second := by
  have chars := congrArg String.toList same
  have catalogName : catalog.name.toList = "metadata".toList := rfl
  have notCatalog {rest : List Char} : "metadata".toList ≠ "column".toList ++ rest := by
    intro equal
    have head := congrArg List.head? equal
    simp at head
  cases first with
  | catalog =>
      cases second with
      | catalog => rfl
      | part column index =>
          rw [catalogName, toList_name_part] at chars
          exact absurd chars notCatalog
      | text column =>
          rw [catalogName, toList_name_text] at chars
          exact absurd chars notCatalog
  | part column index =>
      rw [toList_name_part] at chars
      cases second with
      | catalog => exact absurd chars.symm notCatalog
      | part otherColumn otherIndex =>
          rw [toList_name_part] at chars
          obtain ⟨columns, rest⟩ :=
            digits_append_inj (by decide) (by decide) (List.append_cancel_left chars)
          have indices := toDigits_injective (List.append_cancel_left (List.cons.inj rest).2)
          rw [columns, indices]
      | text otherColumn =>
          rw [toList_name_text] at chars
          obtain ⟨-, rest⟩ := @digits_append_inj column otherColumn '_' '.' _ "txt".toList
            (by decide) (by decide) (List.append_cancel_left chars)
          simp at rest
  | text column =>
      rw [toList_name_text] at chars
      cases second with
      | catalog => exact absurd chars.symm notCatalog
      | part otherColumn otherIndex =>
          rw [toList_name_part] at chars
          obtain ⟨-, rest⟩ := @digits_append_inj column otherColumn '.' '_' "txt".toList _
            (by decide) (by decide) (List.append_cancel_left chars)
          simp at rest
      | text otherColumn =>
          rw [toList_name_text] at chars
          obtain ⟨columns, -⟩ := @digits_append_inj column otherColumn '.' '.' "txt".toList
            "txt".toList (by decide) (by decide) (List.append_cancel_left chars)
          rw [columns]

/-- The characters that names are made of. -/
def alphabet : List Char := "0123456789columnetadpr_.x".toList

theorem mem_alphabet {file : StoredFile} {char : Char} (member : char ∈ file.name.toList) :
    char ∈ alphabet := by
  have column : "column".toList ⊆ alphabet := by decide
  have digits (number : Nat) (inside : char ∈ Nat.toDigits 10 number) : char ∈ alphabet :=
    Decimal.mem_of_isDigit (by decide) (Decimal.isDigit_of_mem inside)
  cases file with
  | catalog =>
      have word : "metadata".toList ⊆ alphabet := by decide
      exact word member
  | part number index =>
      rw [toList_name_part] at member
      have part : "part".toList ⊆ alphabet := by decide
      simp only [List.mem_append, List.mem_cons] at member
      rcases member with front | digit | rfl | middle | digit
      · exact column front
      · exact digits number digit
      · decide
      · exact part middle
      · exact digits index digit
  | text number =>
      rw [toList_name_text] at member
      have ending : ".txt".toList ⊆ alphabet := by decide
      simp only [List.mem_append] at member
      rcases member with front | digit | last
      · exact column front
      · exact digits number digit
      · exact ending last

theorem head?_name (file : StoredFile) :
    file.name.toList.head? = some 'c' ∨ file.name.toList.head? = some 'm' := by
  cases file with
  | catalog => exact .inr rfl
  | part number index =>
      rw [toList_name_part]
      exact .inl rfl
  | text number =>
      rw [toList_name_text]
      exact .inl rfl

theorem name_ne_nil (file : StoredFile) : file.name.toList ≠ [] := by
  intro none
  have first := file.head?_name
  rw [none] at first
  simp at first

/-- A name keeps its characters wherever those of names are not reserved. -/
theorem percentEncode_name {reserved : List Char}
    (free : ∀ char ∈ alphabet, Unescaped reserved char) (file : StoredFile) :
    percentEncode reserved file.name.toList = file.name.toList :=
  percentEncode_eq_self_iff.mpr fun char member => free char (mem_alphabet member)

theorem literal_name (file : StoredFile) : Location.Literal file.name.toList := by
  refine ⟨?_, ?_, fun char member => ?_⟩
  · intro dot
    have first := file.head?_name
    rw [dot] at first
    simp at first
  · intro dots
    have first := file.head?_name
    rw [dots] at first
    simp at first
  · have free : ∀ char ∈ alphabet, Unescaped Location.reserved char :=
      List.all_iff_forall_prop.mp (by decide)
    exact free char (mem_alphabet member)

theorem encodeSegment_name (file : StoredFile) :
    Location.encodeSegment file.name.toList = file.name := by
  rw [Location.encodeSegment_eq_self_iff.mpr file.literal_name, String.ofList_toList]

theorem slash_not_mem_name (file : StoredFile) : '/' ∉ file.name.toList := by
  intro member
  exact absurd (mem_alphabet member) (by decide)

/-- Files of one location are one, whatever directory they were named in. -/
theorem eq_of_child {first second : Location} {file other : StoredFile}
    (same : first.child file.name = second.child other.name) : file = other := by
  simp only [Location.child, encodeSegment_name, Location.mk.injEq] at same
  exact name_injective (List.append_inj_right' same rfl |> List.cons.inj |>.1)

theorem child_injective {directory : Location} {first second : StoredFile}
    (same : directory.child first.name = directory.child second.name) : first = second := by
  simp only [Location.child, encodeSegment_name, Location.mk.injEq, List.append_cancel_left_eq,
    List.cons.injEq, and_true] at same
  exact name_injective same

end StoredFile

namespace Location

theorem splitOn_join (front back : String) :
    (front ++ "/" ++ back).toList.splitOn '/' =
      front.toList.splitOn '/' ++ back.toList.splitOn '/' := by
  have chars : (front ++ "/" ++ back).toList = front.toList ++ '/' :: back.toList := by
    simp [String.toList_append]
  rw [chars, List.splitOn_append_cons_self]

theorem ofPath_join (front back : String) :
    ofPath (front ++ "/" ++ back) = ⟨(ofPath front).segments ++ (ofPath back).segments⟩ := by
  simp only [ofPath, splitOn_join, List.filter_append, List.map_append]

theorem ofPath_name (directory : String) (file : StoredFile) :
    ofPath (directory ++ "/" ++ file.name) = (ofPath directory).child file.name := by
  simp only [ofPath, child, splitOn_join, List.splitOn_eq_singleton file.slash_not_mem_name]
  simp [file.name_ne_nil]

/-- Slashes at the end of a path name nothing. -/
theorem ofPath_trimmed (path : String) :
    ofPath (String.ofList (path.toList.reverse.dropWhile (· = '/')).reverse) = ofPath path := by
  suffices trimmed : ∀ reversed : List Char,
      ofPath (String.ofList (reversed.dropWhile (· = '/')).reverse) =
        ofPath (String.ofList reversed.reverse) by
    rw [trimmed, List.reverse_reverse, String.ofList_toList]
  intro reversed
  induction reversed with
  | nil => rfl
  | cons char rest ih =>
      by_cases slash : char = '/'
      · subst slash
        rw [List.dropWhile_cons_of_pos (by simp), ih]
        simp only [ofPath, String.toList_ofList, List.reverse_cons,
          List.splitOn_append_cons_self]
        simp
      · rw [List.dropWhile_cons_of_neg (by simpa using slash)]

end Location

theorem Place.afterScheme?_append (scheme key : String) :
    afterScheme? scheme (scheme ++ key) = some key.toList := by
  have front : scheme.toList.isPrefixOf (scheme ++ key).toList = true := by
    rw [String.toList_append]
    exact List.isPrefixOf_iff_prefix.mpr (List.prefix_append ..)
  rw [afterScheme?, if_pos front, String.toList_append, ← String.length_toList, List.drop_left]

theorem Place.ofPath_memory (directory key : String) :
    ofPath directory (memoryScheme ++ key) = .ok ⟨.memory, .ofPath key⟩ := by
  have noBucket : afterScheme? bucketScheme (memoryScheme ++ key) = none := by
    simp [afterScheme?, memoryScheme, bucketScheme]
  simp only [ofPath, noBucket, afterScheme?_append, String.ofList_toList]

theorem Stores.resolve_memory (stores : Stores) (key : String) :
    stores.resolve (Place.memoryScheme ++ key) = .ok ⟨.memory, .ofPath key⟩ :=
  Place.ofPath_memory stores.directory key

end Columnar
