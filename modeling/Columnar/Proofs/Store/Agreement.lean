import Columnar.Proofs.Store.Contents

namespace Columnar.Stores

/-!
Stores that hold the same objects.

Objects written to the memory store in another order leave the same behind, as long as no location
is written twice with different bytes.
-/

structure Agrees (left right : Stores) : Prop where
  directory : left.directory = right.directory
  files : left.files = right.files
  memory : ∀ location, left.memory.get? location = right.memory.get? location

namespace Agrees

variable {left right : Stores}

theorem refl (stores : Stores) : stores.Agrees stores := ⟨rfl, rfl, fun _ => rfl⟩

theorem resolve (agrees : left.Agrees right) (path : String) :
    left.resolve path = right.resolve path := by
  rw [Stores.resolve, Stores.resolve, agrees.directory]

theorem read (agrees : left.Agrees right) (place : Place) : left.read place = right.read place := by
  obtain ⟨kind, location⟩ := place
  cases kind with
  | memory => simp only [Stores.read, agrees.memory]
  | files => simp only [Stores.read, agrees.files]
  | bucket name anonymous => rfl

theorem object? (agrees : left.Agrees right) (place : Place) :
    left.object? place = right.object? place := by
  obtain ⟨kind, location⟩ := place
  cases kind with
  | memory => exact agrees.memory location
  | files => simp only [Stores.object?, agrees.files]
  | bucket name anonymous => rfl

theorem put_memory (agrees : left.Agrees right) (location : Location) (bytes : Bytes) :
    (left.put ⟨.memory, location⟩ bytes).Agrees (right.put ⟨.memory, location⟩ bytes) := by
  refine ⟨agrees.directory, agrees.files, fun other => ?_⟩
  simp only [Stores.put, Objects.get?_put, agrees.memory]

end Agrees

variable {stores : Stores} {writes others : List (Location × Bytes)}

theorem write_memory (stores : Stores) (location : Location) (bytes : Bytes) :
    stores.write ⟨.memory, location⟩ bytes = .ok (stores.put ⟨.memory, location⟩ bytes) := rfl

theorem putAll_append (kind : StoreKind) :
    stores.putAll kind (writes ++ others) = (stores.putAll kind writes).putAll kind others :=
  List.foldl_append

theorem files_putAll_memory : (stores.putAll .memory writes).files = stores.files := by
  induction writes generalizing stores with
  | nil => rfl
  | cons write rest ih => rw [putAll_cons, ih, Stores.put]

/-- What the memory store holds behind writes that agree does not depend on their order. -/
theorem agrees_putAll {directory : Location}
    (below : ∀ write ∈ writes, ∃ name, write.1 = directory.child name)
    (agree : ∀ write ∈ writes, ∀ other ∈ writes, write.1 = other.1 → write.2 = other.2)
    (same : ∀ write, write ∈ writes ↔ write ∈ others) :
    (stores.putAll .memory writes).Agrees (stores.putAll .memory others) := by
  refine ⟨?_, ?_, ?_⟩
  · rw [directory_putAll, directory_putAll]
  · rw [files_putAll_memory, files_putAll_memory]
  · intro location
    by_cases written : ∃ write ∈ writes, write.1 = location
    · obtain ⟨⟨place, bytes⟩, member, rfl⟩ := written
      have beside : ∀ write ∈ writes, Beside write.1 place := by
        intro write among
        obtain ⟨name, child⟩ := below write among
        obtain ⟨own, placed⟩ := below _ member
        rw [child]
        exact (show place = directory.child own from placed) ▸ beside_child ..
      have takes : stores.Takes .memory place := trivial
      have kept : (stores.putAll .memory writes).Keeps .memory place bytes :=
        takes.keeps_putAll beside member fun write among here => agree write among _ member here
      have keptOther : (stores.putAll .memory others).Keeps .memory place bytes :=
        takes.keeps_putAll (fun write among => beside write ((same write).mpr among))
          ((same _).mp member) fun write among here =>
            agree write ((same write).mpr among) _ member here
      exact Eq.trans kept keptOther.symm
    · have apart (list : List (Location × Bytes)) (inside : ∀ write ∈ list, write ∈ writes) :
          (stores.putAll .memory list).object? ⟨.memory, location⟩ =
            stores.object? ⟨.memory, location⟩ := by
        apply object?_putAll_of_ne
        intro write member here
        exact written ⟨write, inside write member, congrArg Place.location here⟩
      exact (apart writes fun _ member => member).trans
        (apart others fun write member => (same write).mpr member).symm

end Columnar.Stores
