import Columnar.Store.Location

namespace Columnar

/-!
Objects: byte strings kept under locations.

The contents of a store are the writes made to it, the latest first; a location holds what was last
written there.  `get?_put` says what a write changes, and that it changes nothing else.
-/

structure Objects where
  writes : List (Location × Bytes)

namespace Objects

def empty : Objects := ⟨[]⟩

def get? (objects : Objects) (location : Location) : Option Bytes :=
  (objects.writes.find? fun entry => entry.1 = location).map (·.2)

def put (objects : Objects) (location : Location) (bytes : Bytes) : Objects :=
  ⟨(location, bytes) :: objects.writes⟩

theorem get?_put (objects : Objects) (location other : Location) (bytes : Bytes) :
    (objects.put location bytes).get? other =
      if location = other then some bytes else objects.get? other := by
  unfold get? put
  by_cases same : location = other <;> simp [same]

end Objects

end Columnar
