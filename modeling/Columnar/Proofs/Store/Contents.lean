import Columnar.Proofs.Errors
import Columnar.Proofs.Store.Files
import Columnar.Proofs.Store.Names
import Columnar.Store.Place

namespace Columnar.Stores

/-!
What stores hold after writes.

A store that takes a location reads back what is written there, also after other objects of the
same directory have been written.  A bucket takes none.
-/

def Takes (stores : Stores) (kind : StoreKind) (location : Location) : Prop :=
  match kind with
  | .memory => True
  | .files => stores.files.Takes location
  | .bucket .. => False

def Keeps (stores : Stores) (kind : StoreKind) (location : Location) (bytes : Bytes) : Prop :=
  match kind with
  | .memory => stores.memory.get? location = some bytes
  | .files => stores.files.Keeps location bytes
  | .bucket .. => False

def Beside (first second : Location) : Prop := first.segments.dropLast = second.segments.dropLast

theorem beside_child (directory : Location) (first second : String) :
    Beside (directory.child first) (directory.child second) := by
  simp [Beside, Location.child]

variable {stores : Stores} {kind : StoreKind} {location other : Location} {bytes content : Bytes}
  {writes : List (Location × Bytes)}

theorem takes_of_refusal? (accepted : stores.refusal? kind location = none) :
    stores.Takes kind location := by
  cases kind with
  | memory => trivial
  | files => exact FileTree.takes_of_refusal? (Option.map_eq_none_iff.mp accepted)
  | bucket name anonymous => contradiction

theorem Keeps.read (keeps : stores.Keeps kind location bytes) :
    stores.read ⟨kind, location⟩ = .ok bytes := by
  cases kind with
  | memory =>
      have held : stores.memory.get? location = some bytes := keeps
      simp only [Stores.read, held]
  | files => simp only [Stores.read, FileTree.Keeps.read keeps, mapError_ok]
  | bucket name anonymous => exact keeps.elim

theorem Takes.keeps_put (takes : stores.Takes kind location) :
    (stores.put ⟨kind, location⟩ bytes).Keeps kind location bytes := by
  cases kind with
  | memory => exact (Objects.get?_put ..).trans (if_pos rfl)
  | files => exact FileTree.Takes.keeps_put takes
  | bucket name anonymous => exact takes

theorem eq_put_of_write {place : Place} {after : Stores}
    (written : stores.write place bytes = .ok after) : after = stores.put place bytes := by
  unfold Stores.write at written
  split at written
  · contradiction
  · exact (Except.ok.inj written).symm

/-- What is written to a place is read there. -/
theorem read_of_write {place : Place} {after : Stores}
    (written : stores.write place bytes = .ok after) : after.read place = .ok bytes := by
  unfold Stores.write at written
  split at written
  · contradiction
  · rename_i accepted
    cases written
    exact (takes_of_refusal? accepted).keeps_put.read

theorem Takes.put (takes : stores.Takes kind location) (beside : Beside other location) :
    (stores.put ⟨kind, other⟩ content).Takes kind location := by
  cases kind with
  | memory => trivial
  | files => exact FileTree.Takes.put takes beside
  | bucket name anonymous => exact takes

theorem Keeps.put (keeps : stores.Keeps kind location bytes) (beside : Beside other location)
    (differs : other ≠ location) :
    (stores.put ⟨kind, other⟩ content).Keeps kind location bytes := by
  cases kind with
  | memory => exact (Objects.get?_put ..).trans ((if_neg differs).trans keeps)
  | files => exact FileTree.Keeps.put keeps beside differs
  | bucket name anonymous => exact keeps

theorem putAll_cons (stores : Stores) (kind : StoreKind) (write : Location × Bytes)
    (rest : List (Location × Bytes)) :
    stores.putAll kind (write :: rest) = (stores.put ⟨kind, write.1⟩ write.2).putAll kind rest :=
  rfl

theorem Keeps.putAll (keeps : stores.Keeps kind location bytes)
    (beside : ∀ write ∈ writes, Beside write.1 location)
    (untouched : ∀ write ∈ writes, write.1 ≠ location) :
    (stores.putAll kind writes).Keeps kind location bytes := by
  induction writes generalizing stores with
  | nil => exact keeps
  | cons write rest ih =>
      exact ih (keeps.put (beside write (by simp)) (untouched write (by simp)))
        (fun next member => beside next (by simp [member]))
        fun next member => untouched next (by simp [member])

/-- A location keeps what is written there, when all writes to it agree. -/
theorem Takes.keeps_putAll (takes : stores.Takes kind location)
    (beside : ∀ write ∈ writes, Beside write.1 location) (member : (location, bytes) ∈ writes)
    (agree : ∀ write ∈ writes, write.1 = location → write.2 = bytes) :
    (stores.putAll kind writes).Keeps kind location bytes := by
  induction writes generalizing stores with
  | nil => contradiction
  | cons write rest ih =>
      rw [putAll_cons]
      have near : ∀ next ∈ rest, Beside next.1 location :=
        fun next member => beside next (by simp [member])
      have others : ∀ next ∈ rest, next.1 = location → next.2 = bytes :=
        fun next member => agree next (by simp [member])
      by_cases later : ∃ next ∈ rest, next.1 = location
      · obtain ⟨⟨place, content⟩, inside, here⟩ := later
        obtain rfl : content = bytes := others _ inside here
        obtain rfl : place = location := here
        exact ih (takes.put (beside write (by simp))) near inside others
      · have untouched : ∀ next ∈ rest, next.1 ≠ location :=
          fun next inside here => later ⟨next, inside, here⟩
        rcases List.mem_cons.mp member with rfl | inside
        · exact takes.keeps_put.putAll near untouched
        · exact absurd rfl (untouched _ inside)

/-- The object that is kept at a place, whether or not it can be reached there. -/
def object? (stores : Stores) (place : Place) : Option Bytes :=
  match place.store with
  | .memory => stores.memory.get? place.location
  | .files => stores.files.files.get? place.location
  | .bucket .. => none

theorem Keeps.object? (keeps : stores.Keeps kind location bytes) :
    stores.object? ⟨kind, location⟩ = some bytes := by
  cases kind with
  | memory => exact keeps
  | files => exact FileTree.Keeps.held keeps
  | bucket name anonymous => exact keeps.elim

theorem object?_put_of_ne {place other : Place} (differs : place ≠ other) :
    (stores.put place bytes).object? other = stores.object? other := by
  obtain ⟨kind, location⟩ := place
  obtain ⟨otherKind, otherLocation⟩ := other
  cases kind with
  | memory =>
      cases otherKind with
      | memory =>
          exact (Objects.get?_put ..).trans
            (if_neg fun same => differs (congrArg (Place.mk .memory) same))
      | files => rfl
      | bucket name anonymous => rfl
  | files =>
      cases otherKind with
      | memory => rfl
      | files =>
          exact (Objects.get?_put ..).trans
            (if_neg fun same => differs (congrArg (Place.mk .files) same))
      | bucket name anonymous => rfl
  | bucket name anonymous => rfl

theorem object?_putAll_of_ne {place : Place}
    (untouched : ∀ write ∈ writes, (⟨kind, write.1⟩ : Place) ≠ place) :
    (stores.putAll kind writes).object? place = stores.object? place := by
  induction writes generalizing stores with
  | nil => rfl
  | cons write rest ih =>
      rw [putAll_cons, ih fun next member => untouched next (by simp [member]),
        object?_put_of_ne (untouched write (by simp))]

theorem directory_put (stores : Stores) (place : Place) (bytes : Bytes) :
    (stores.put place bytes).directory = stores.directory := by
  unfold Stores.put
  cases place.store <;> rfl

theorem directory_putAll (stores : Stores) (kind : StoreKind) (writes : List (Location × Bytes)) :
    (stores.putAll kind writes).directory = stores.directory := by
  induction writes generalizing stores with
  | nil => rfl
  | cons write rest ih => rw [putAll_cons, ih, directory_put]

end Columnar.Stores
