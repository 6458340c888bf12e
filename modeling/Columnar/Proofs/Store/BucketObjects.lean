import Columnar.Proofs.Store.BucketFiles
import Columnar.Proofs.Store.Contents

namespace Columnar

/-!
Objects that places name.

A bucket holds an object whether or not the requests for it are signed, so two places can name one
object.  Texts of URLs that agree up to a mark do: what stands behind it is no part of the path.
-/

/-- The store that keeps the objects, however they are asked for. -/
def StoreKind.keeper : StoreKind → StoreKind
  | .bucket name _ => .bucket name false
  | kind => kind

/-- Whether what is written to one place is read at the other. -/
def Place.SameObject (first second : Place) : Prop :=
  first.store.keeper = second.store.keeper ∧ first.location = second.location

instance (first second : Place) : Decidable (first.SameObject second) :=
  inferInstanceAs (Decidable (_ ∧ _))

/-- What is written to one object leaves every other as it is. -/
theorem Stores.object?_put_of_not_sameObject {place other : Place}
    (apart : ¬ place.SameObject other) (stores : Stores) (bytes : Bytes) :
    (stores.put place bytes).object? other = stores.object? other := by
  refine object?_put_of_ne ?_
  rintro rfl
  exact apart ⟨rfl, rfl⟩

namespace Store.BucketUrl

variable {front back other : List Char} {found beside : Place}

/-- Behind a mark nothing that is written leads elsewhere. -/
theorem Leads.sameObject (marked : Marked front) (leads : Leads (front ++ back) found)
    (others : Leads (front ++ other) beside) : found.SameObject beside := by
  have inner : Marked (afterAuthority front) := marked_iff_afterAuthority.mp marked
  have ends : afterAuthority front ≠ [] := by
    obtain ⟨char, member, -⟩ := inner
    exact List.ne_nil_of_mem member
  obtain ⟨bucket, rest, names, rfl⟩ := leads
  obtain ⟨otherBucket, otherRest, otherNames, rfl⟩ := others
  obtain ⟨unmoved, behind⟩ := @authority_append front back (.inl ends)
  obtain ⟨otherUnmoved, otherBehind⟩ := @authority_append front other (.inl ends)
  rw [unmoved] at names
  rw [otherUnmoved] at otherNames
  obtain ⟨rfl, rfl⟩ := names.unique otherNames
  have path : Marked (rest ++ afterAuthority front) := marked_append.mpr (.inr inner)
  refine ⟨rfl, ?_⟩
  rw [behind, otherBehind, ← List.append_assoc, ← List.append_assoc, location_marked path,
    location_marked path]

/-- Without a mark a name behind a slash is that of a file in some directory. -/
theorem Leads.exists_child (unmarked : ¬ Marked front) (file : StoredFile)
    (leads : Leads (front ++ '/' :: file.name.toList) found) :
    ∃ directory : Place, found = directory.child file.name := by
  obtain ⟨bucket, rest, names, rfl⟩ := leads
  obtain ⟨unmoved, behind⟩ :=
    @authority_append front ('/' :: file.name.toList) (.inr (authority_slash _))
  rw [unmoved] at names
  have plain := names.not_marked_path unmarked
  rw [behind, ← List.append_assoc]
  exact ⟨_, @place_name _ plain [] (by simp) bucket file⟩

/-- A marked text begins with one in which a mark stands too, and which no blanks end. -/
theorem exists_marked_front {text slashes : List Char} (only : ∀ char ∈ slashes, char = '/')
    (marked : Marked (text ++ slashes)) :
    ∃ front, Marked front ∧ (∃ back, significant (text ++ slashes) = front ++ back) ∧
      ∃ back, withoutBreaks text = front ++ back := by
  have inside : Marked text := (marked_append.mp marked).resolve_right (not_marked_slashes only)
  have high : ∀ char ∈ slashes, 0x20 < char.toNat := by
    intro char member
    rw [only char member]
    decide
  by_cases bare : slashes = []
  · subst bare
    have whole := significant_append_stray text
    have clean : ¬ Marked (stray text) := by
      rcases stray_eq_nil_or text with empty | blanks
      · rw [empty]
        exact not_marked_slashes only
      · exact blanks.not_marked
    have front : Marked (significant text) := by
      rw [← marked_withoutBreaks, ← whole, marked_append, or_iff_left clean] at inside
      exact inside
    exact ⟨significant text, front, ⟨[], by rw [List.append_nil, List.append_nil]⟩, stray text,
      whole.symm⟩
  · exact ⟨withoutBreaks text, marked_withoutBreaks.mpr inside,
      ⟨slashes, significant_append high bare text⟩, [], (List.append_nil _).symm⟩

end Store.BucketUrl

end Columnar
