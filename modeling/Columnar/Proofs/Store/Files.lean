import Columnar.Store.FileTree

namespace Columnar.FileTree

/-!
Files that are read back.

`Takes` is what a location needs for a file there to be read: a name that is no drive, names and a
path that are not too long, and no directory in its place.  A write that is not refused finds all of
it, and writing files of one directory leaves it alone.
-/

structure Takes (tree : FileTree) (location : Location) : Prop where
  named : location.segments ≠ []
  noDrive : location.namesDrive = false
  shortNames : ∀ name ∈ location.segments, tooLong name = false
  shortPath : (Location.pathOf location.segments).utf8ByteSize ≤ maxPath
  free : tree.isDirectory location.segments = false

variable {tree : FileTree} {location other : Location} {bytes content : Bytes}

theorem shortNames_of_follow {above below : List String} {entry : Entry}
    (found : tree.follow above below = .ok entry) : ∀ name ∈ below, tooLong name = false := by
  induction below generalizing above with
  | nil => simp
  | cons name rest ih =>
      rw [follow] at found
      split at found
      · contradiction
      · contradiction
      split at found
      · contradiction
      rename_i short
      intro other member
      rcases List.mem_cons.mp member with rfl | member
      · simpa using short
      · exact ih found other member

theorem follow_of_isDirectory {above below : List String} {name : String}
    (known : tree.isDirectory (above ++ below) = true)
    (short : ∀ other ∈ below ++ [name], tooLong other = false) :
    tree.follow above (below ++ [name]) = tree.follow (above ++ below ++ [name]) [] := by
  induction below generalizing above with
  | nil =>
      rw [List.append_nil] at known ⊢
      have here : tree.entry? above = some .directory := if_pos known
      simp only [List.nil_append, follow, here, short name (by simp), Bool.false_eq_true, if_false]
  | cons first rest ih =>
      have here : tree.entry? above = some .directory :=
        if_pos (isDirectory_of_isPrefix (List.prefix_append ..) known)
      have next := @ih (above ++ [first])
        (by simpa [List.append_assoc] using known)
        fun other member => short other (List.mem_cons_of_mem first member)
      have step : tree.follow above (first :: (rest ++ [name])) =
          tree.follow (above ++ [first]) (rest ++ [name]) := by
        simp only [follow, here, short first (by simp), Bool.false_eq_true, if_false]
      rw [List.cons_append, step, next]
      simp [List.append_assoc]

theorem pathOf_le_staged (parent : List String) (name : String) :
    (Location.pathOf (parent ++ [name])).utf8ByteSize ≤
      (Location.pathOf (parent ++ [name ++ "#1"])).utf8ByteSize := by
  by_cases root : parent = []
  · subst root
    simp only [Location.pathOf, List.nil_append, String.intercalate_singleton,
      String.utf8ByteSize_append]
    omega
  · simp only [Location.pathOf, String.intercalate_append_of_ne_nil root (List.cons_ne_nil _ _),
      String.intercalate_singleton, String.utf8ByteSize_append]
    omega

theorem tooLong_of_staged {name : String} (short : tooLong (name ++ "#1") = false) :
    tooLong name = false := by
  simp only [tooLong, String.utf8ByteSize_append, decide_eq_false_iff_not] at short ⊢
  omega

/-- A location takes a file when the file could be written under its staged name. -/
theorem takes_of_staged {parent : List String} {name : String}
    (segments : location.segments = parent ++ [name]) (noDrive : location.namesDrive = false)
    (within : tree.find (parent ++ [name ++ "#1"]) ≠ .error .nameTooLong)
    (short : ∀ other ∈ parent ++ [name ++ "#1"], tooLong other = false)
    (free : tree.isDirectory (parent ++ [name]) = false) : tree.Takes location := by
  refine ⟨by simp [segments], noDrive, ?_, ?_, by rw [segments, free]⟩
  · rw [segments]
    intro other member
    rcases List.mem_append.mp member with above | last
    · exact short other (List.mem_append_left _ above)
    · rw [List.mem_singleton.mp last]
      exact tooLong_of_staged (short _ (by simp))
  · unfold find at within
    split at within
    · contradiction
    rename_i bound
    rw [segments]
    exact Nat.le_trans (pathOf_le_staged parent name) (Nat.le_of_not_lt bound)

theorem takes_of_refusal? (accepted : tree.refusal? location = none) : tree.Takes location := by
  have noDrive : location.namesDrive = false := by
    cases named : location.namesDrive with
    | false => rfl
    | true =>
        simp only [refusal?, placement?, named, if_true] at accepted
        repeat' split at accepted
        all_goals exact absurd accepted (Option.some_ne_none _)
  simp only [refusal?, placement?, staged, noDrive, Bool.false_eq_true, if_false] at accepted
  split at accepted
  · exact absurd accepted (Option.some_ne_none _)
  rename_i named
  obtain ⟨parent, name, segments⟩ : ∃ parent name, location.segments = parent ++ [name] :=
    ⟨_, _, (List.dropLast_concat_getLast named).symm⟩
  rw [segments, List.dropLast_concat, List.getLastD_concat] at accepted
  cases found : tree.find (parent ++ [name ++ "#1"]) with
  | error fault =>
      simp only [found] at accepted
      cases fault with
      | noEntry =>
          simp only [] at accepted
          split at accepted
          · exact absurd accepted (Option.some_ne_none _)
          rename_i parents
          split at accepted
          · exact absurd accepted (Option.some_ne_none _)
          rename_i short
          split at accepted
          · exact absurd accepted (Option.some_ne_none _)
          rename_i free
          refine takes_of_staged segments noDrive (by simp [found]) ?_ (by simpa using free)
          intro other member
          rcases List.mem_append.mp member with above | last
          · simp only [List.any_eq_true, not_exists, not_and, Bool.not_eq_true] at parents
            exact parents other above
          · rw [List.mem_singleton.mp last]
            simpa using short
      | notDirectory => exact absurd accepted (Option.some_ne_none _)
      | isDirectory => exact absurd accepted (Option.some_ne_none _)
      | nameTooLong => exact absurd accepted (Option.some_ne_none _)
  | ok entry =>
      simp only [found] at accepted
      split at accepted
      · exact absurd accepted (Option.some_ne_none _)
      rename_i free
      refine takes_of_staged segments noDrive (by simp [found]) ?_ (by simpa using free)
      unfold find at found
      split at found
      · contradiction
      exact shortNames_of_follow found

/-- The bytes of a file stand at a location, below a directory. -/
structure Keeps (tree : FileTree) (location : Location) (bytes : Bytes) : Prop where
  takes : tree.Takes location
  above : tree.isDirectory location.segments.dropLast = true
  held : tree.files.get? location = some bytes

theorem Keeps.read (keeps : tree.Keeps location bytes) : tree.read location = .ok bytes := by
  obtain ⟨⟨named, drive, short, path, free⟩, above, held⟩ := keeps
  have same : location.segments.dropLast ++ [location.segments.getLast named] = location.segments :=
    List.dropLast_concat_getLast named
  have followed : tree.follow [] location.segments = .ok (.file bytes) := by
    rw [← same, follow_of_isDirectory (by simpa using above) (by rw [same]; exact short),
      List.nil_append, same]
    simp [follow, FileTree.entry?, free, held]
  have found : tree.find location.segments = .ok (.file bytes) := by
    rw [find, if_neg (by omega), followed]
  simp only [FileTree.read, if_neg named, found, drive, Bool.false_eq_true, if_false]


theorem isDirectory_put (tree : FileTree) (location : Location) (bytes : Bytes)
    (segments : List String) :
    (tree.put location bytes).isDirectory segments =
      (segments.isPrefixOf location.segments.dropLast || tree.isDirectory segments) :=
  isDirectory_withDirectory tree ⟨location.segments.dropLast⟩ segments

/-- Writing into the directory of a location leaves the location free. -/
theorem Takes.put (takes : tree.Takes location)
    (beside : other.segments.dropLast = location.segments.dropLast) :
    (tree.put other content).Takes location := by
  obtain ⟨named, drive, short, path, free⟩ := takes
  refine ⟨named, drive, short, path, ?_⟩
  rw [isDirectory_put, free, Bool.or_false, beside]
  cases leading : location.segments.isPrefixOf location.segments.dropLast with
  | false => rfl
  | true =>
      have longer := (List.isPrefixOf_iff_prefix.mp leading).length_le
      have positive := List.length_pos_iff.mpr named
      rw [List.length_dropLast] at longer
      omega

theorem Takes.keeps_put (takes : tree.Takes location) :
    (tree.put location bytes).Keeps location bytes := by
  refine ⟨takes.put rfl, ?_, ?_⟩
  · rw [isDirectory_put]
    simp
  · exact (Objects.get?_put ..).trans (if_pos rfl)

/-- Writing another file of the directory keeps a file as it is. -/
theorem Keeps.put (keeps : tree.Keeps location bytes)
    (beside : other.segments.dropLast = location.segments.dropLast) (differs : other ≠ location) :
    (tree.put other content).Keeps location bytes := by
  refine ⟨keeps.takes.put beside, ?_, ?_⟩
  · rw [isDirectory_put, keeps.above, Bool.or_true]
  · exact (Objects.get?_put ..).trans ((if_neg differs).trans keeps.held)

end Columnar.FileTree
