import Columnar.Archive
import Columnar.Proofs.Bytes.Placement

namespace Columnar.Archive

/-!
References lead back to their targets.

A distance counts modulo the number of 32-bit words and its upper half points back, so a reference
reaches two gigabytes behind its own address.
-/

/-- How far back a reference can lead. -/
def reach : Nat := 0x80000000

@[simp] theorem Reference.length_encode (reference : Reference) : reference.encode.length = 8 := by
  simp [Reference.encode]

theorem distanceModulus_eq : distanceModulus = 4294967296 := rfl

theorem resolveTarget?_back {address target : Nat} (behind : target ≤ address)
    (near : address ≤ target + reach) :
    resolveTarget? address ((target + distanceModulus - address) % distanceModulus) =
      some target := by
  simp only [reach] at near
  rw [resolveTarget?, distanceModulus_eq]
  by_cases here : target = address
  · subst here
    have distance : (target + 4294967296 - target) % 4294967296 = 0 := by omega
    rw [distance, if_pos (by decide), Nat.add_zero]
  · have distance : (target + 4294967296 - address) % 4294967296 =
        target + 4294967296 - address := by omega
    have back : address + (target + 4294967296 - address) - 4294967296 = target := by omega
    rw [distance, if_neg (by omega), if_pos (by omega), back]

section Placed

variable {reference : Reference} {file : Bytes}

theorem Reference.readNat?_length
    (placed : Bytes.Placed reference.encode reference.address file)
    (count : reference.length < Bytes.capacity 4) :
    Bytes.readNat? file.toArray 4 (reference.address + 4) = some reference.length := by
  have lengthPlace := placed.right
  rw [Bytes.length_ofNat] at lengthPlace
  exact lengthPlace.readNat? count

theorem Reference.readNat?_distance
    (placed : Bytes.Placed reference.encode reference.address file)
    (behind : reference.target ≤ reference.address)
    (near : reference.address ≤ reference.target + reach) :
    ∃ distance, Bytes.readNat? file.toArray 4 reference.address = some distance ∧
      resolveTarget? reference.address distance = some reference.target := by
  have capacity : distanceModulus = Bytes.capacity 4 := by
    rw [distanceModulus_eq, Bytes.capacity_four]
  have distancePlace := placed.left
  rw [← Bytes.ofNat_mod, ← capacity] at distancePlace
  refine ⟨_, distancePlace.readNat? ?_, resolveTarget?_back behind near⟩
  rw [← capacity]
  exact Nat.mod_lt _ (by rw [distanceModulus_eq]; omega)

/-- A written reference resolves to itself inside any window that holds what it refers to. -/
theorem Reference.resolve?_placed (window : Window) (width : Nat)
    (placed : Bytes.Placed reference.encode reference.address file)
    (behind : reference.target ≤ reference.address)
    (near : reference.address ≤ reference.target + reach)
    (count : reference.length < Bytes.capacity 4) (start : window.start ≤ reference.target)
    (stop : reference.target + reference.length * width ≤ window.stop) :
    Reference.resolve? file.toArray window width reference.address = some reference := by
  obtain ⟨distance, read, target⟩ := Reference.readNat?_distance placed behind near
  rw [Reference.resolve?, read, Reference.readNat?_length placed count]
  simp only [target, start, stop, and_self, if_true]

theorem Reference.bytes_placed (reference : Reference) {piece : Bytes}
    (placed : Bytes.Placed piece reference.target file) (length : reference.length = piece.length) :
    reference.bytes file.toArray = piece := by
  rw [Reference.bytes, toList_extract, length, placed.slice_eq]

end Placed

@[simp] theorem length_align (data : Bytes) :
    (align data).length = data.length + Bytes.paddingFor data.length := by
  rw [align, List.length_append, List.length_replicate]

theorem align_aligned (data : Bytes) : (align data).length % 4 = 0 := by
  rw [length_align, Bytes.paddingFor_aligned]

/-- The record behind an aligned front is found from the end of the file. -/
theorem rootAddress?_eq {file : Bytes} {root size : Nat} (length : file.length = root + size)
    (aligned : root % 4 = 0) : rootAddress? file.toArray size = some root := by
  have place : file.toArray.size - size = root := by
    rw [List.size_toArray, length, Nat.add_sub_cancel]
  unfold rootAddress?
  rw [place, if_pos ⟨by rw [List.size_toArray]; omega, aligned⟩]

end Columnar.Archive
