import Columnar.Proofs.Store.Names

namespace Columnar

/-!
Files that local paths name.

A path names a file by the directories that it goes through: one dot stays where it is and two dots
go back.  A location keeps every segment of the path, so it is that file's exactly when each segment
is written as it is.
-/

namespace Location

/-- Follows one segment of a path from the directories above it, the innermost first. -/
def followSegment (above : List String) (segment : List Char) : List String :=
  if segment = [] ∨ segment = ['.'] then above
  else if segment = ['.', '.'] then above.tail
  else String.ofList segment :: above

/-- The file that an absolute path names. -/
def named (path : String) : Location :=
  ⟨((path.toList.splitOn '/').foldl followSegment []).reverse⟩

/-- Whether a segment names a directory of its own. -/
def Entered (segment : List Char) : Prop :=
  segment ≠ [] ∧ segment ≠ ['.'] ∧ segment ≠ ['.', '.']

instance (segment : List Char) : Decidable (Entered segment) :=
  inferInstanceAs (Decidable (segment ≠ [] ∧ segment ≠ ['.'] ∧ segment ≠ ['.', '.']))

variable {segment : List Char} {segments : List (List Char)} {above : List String}

theorem followSegment_nil : followSegment above [] = above := if_pos (.inl rfl)

theorem followSegment_dot : followSegment above ['.'] = above := if_pos (.inr rfl)

theorem followSegment_dots : followSegment above ['.', '.'] = above.tail := by
  simp [followSegment]

theorem followSegment_entered (entered : Entered segment) :
    followSegment above segment = String.ofList segment :: above := by
  obtain ⟨some, dot, dots⟩ := entered
  have stays : ¬ (segment = [] ∨ segment = ['.']) := by
    rintro (none | one)
    · exact some none
    · exact dot one
  rw [followSegment, if_neg stays, if_neg dots]

theorem entered_or : segment = [] ∨ segment = ['.'] ∨ segment = ['.', '.'] ∨ Entered segment := by
  unfold Entered
  by_cases none : segment = []
  · exact .inl none
  by_cases one : segment = ['.']
  · exact .inr (.inl one)
  by_cases two : segment = ['.', '.']
  · exact .inr (.inr (.inl two))
  · exact .inr (.inr (.inr ⟨none, one, two⟩))

/-- Where every segment is empty or entered, all that is not empty is gone through. -/
theorem follow_entered (entered : ∀ segment ∈ segments, segment ≠ [] → Entered segment) :
    segments.foldl followSegment above =
      ((segments.filter (· ≠ [])).map String.ofList).reverse ++ above := by
  induction segments generalizing above with
  | nil => rfl
  | cons segment rest ih =>
      obtain ⟨first, others⟩ := List.forall_mem_cons.mp entered
      rw [List.foldl_cons, ih others]
      by_cases empty : segment = []
      · rw [empty, followSegment_nil, List.filter_cons_of_neg (by simp)]
      · rw [followSegment_entered (first empty), List.filter_cons_of_pos (by simpa using empty),
          List.map_cons, List.reverse_cons, List.append_assoc, List.singleton_append]

/-- A path leads no deeper than through the segments that it enters. -/
theorem length_follow_le (segments : List (List Char)) (above : List String) :
    (segments.foldl followSegment above).length ≤
      (segments.filter (Entered ·)).length + above.length := by
  induction segments generalizing above with
  | nil => simp
  | cons segment rest ih =>
      rw [List.foldl_cons]
      rcases @entered_or segment with rfl | rfl | rfl | entered
      · rw [followSegment_nil, List.filter_cons_of_neg (by decide)]
        exact ih above
      · rw [followSegment_dot, List.filter_cons_of_neg (by decide)]
        exact ih above
      · rw [followSegment_dots, List.filter_cons_of_neg (by decide)]
        have back := ih above.tail
        rw [List.length_tail] at back
        omega
      · rw [followSegment_entered entered, List.filter_cons_of_pos (by simpa using entered)]
        have deeper := ih (String.ofList segment :: above)
        rw [List.length_cons] at deeper ⊢
        omega

/-- One dot in a path changes nothing about the file. -/
theorem named_dot (front back : String) :
    named (front ++ "/./" ++ back) = named (front ++ "/" ++ back) := by
  have steps : front ++ "/./" ++ back = front ++ "/" ++ ("." ++ "/" ++ back) := by
    simp [String.ext_iff]
  have dot : ".".toList.splitOn '/' = [['.']] := List.splitOn_eq_singleton (by decide)
  simp only [named, steps, splitOn_join, dot, List.foldl_append, List.foldl_cons, List.foldl_nil,
    followSegment_dot]

/-- A directory entered and left again changes nothing about the file. -/
theorem named_back {name : String} (entered : Entered name.toList) (whole : '/' ∉ name.toList)
    (front back : String) :
    named (front ++ "/" ++ name ++ "/../" ++ back) = named (front ++ "/" ++ back) := by
  have steps : front ++ "/" ++ name ++ "/../" ++ back =
      front ++ "/" ++ (name ++ "/" ++ (".." ++ "/" ++ back)) := by
    simp [String.ext_iff]
  have dots : "..".toList.splitOn '/' = [['.', '.']] := List.splitOn_eq_singleton (by decide)
  simp only [named, steps, splitOn_join, List.splitOn_eq_singleton whole, dots, List.foldl_append,
    List.foldl_cons, List.foldl_nil, followSegment_entered entered, followSegment_dots,
    List.tail_cons]

/-- A path that leads as deep as it has segments enters them all. -/
theorem entered_of_length
    (deep : (segments.filter (· ≠ [])).length ≤ (segments.foldl followSegment []).length) :
    ∀ segment ∈ segments, segment ≠ [] → Entered segment := by
  have within : (segments.filter (Entered ·)) =
      (segments.filter (· ≠ [])).filter (Entered ·) := by
    rw [List.filter_filter]
    refine List.filter_congr fun segment _ => ?_
    simp only [Entered, decide_not]
    grind
  have bound := length_follow_le segments []
  have most := List.length_filter_le (Entered ·) (segments.filter (· ≠ []))
  rw [within, List.length_nil] at bound
  have every : ((segments.filter (· ≠ [])).filter (Entered ·)).length =
      (segments.filter (· ≠ [])).length := by omega
  intro segment member some
  exact of_decide_eq_true (List.length_filter_eq_length_iff.mp every segment
    (List.mem_filter.mpr ⟨member, decide_eq_true some⟩))

theorem Literal.entered (literal : Literal segment) (some : segment ≠ []) : Entered segment :=
  ⟨some, literal.1, literal.2.1⟩

/-- The location of a path is that of the file that it names exactly when every segment is written
as it is. -/
theorem ofPath_eq_named_iff (path : String) :
    ofPath path = named path ↔
      ∀ segment ∈ path.toList.splitOn '/', segment ≠ [] → Literal segment := by
  unfold ofPath named
  generalize path.toList.splitOn '/' = segments
  rw [Location.mk.injEq]
  constructor
  · intro same
    have lengths := congrArg List.length same
    rw [List.length_map, List.length_reverse] at lengths
    rw [follow_entered (entered_of_length (by omega)), List.append_nil, List.reverse_reverse,
      List.map_inj_left] at same
    intro segment member some
    exact encodeSegment_eq_self_iff.mp
      (same segment (List.mem_filter.mpr ⟨member, decide_eq_true some⟩))
  · intro literal
    rw [follow_entered fun segment member some => (literal segment member some).entered some,
      List.append_nil, List.reverse_reverse, List.map_inj_left]
    intro segment member
    obtain ⟨inside, some⟩ := List.mem_filter.mp member
    exact encodeSegment_eq_self_iff.mpr (literal segment inside (of_decide_eq_true some))

end Location

namespace Place

/-- A local path resolves to the location that keeps all its segments, and so to the file that it
names exactly when each of them is written as it is.  That file is the same with one dot more in the
path, and with a directory entered and left again. -/
theorem local_path_named_iff {path : String} (noBucket : afterScheme? bucketScheme path = none)
    (noMemory : afterScheme? memoryScheme path = none) (directory : String) :
    ∃ location, ofPath directory path = .ok ⟨.files, location⟩ ∧
      location.segments =
        (((absolute directory path).toList.splitOn '/').filter (· ≠ [])).map
          Location.encodeSegment ∧
      (location = Location.named (absolute directory path) ↔
        ∀ segment ∈ (absolute directory path).toList.splitOn '/', segment ≠ [] →
          Location.Literal segment) ∧
      ∀ front back, absolute directory path = front ++ "/" ++ back →
        Location.named (front ++ "/./" ++ back) = Location.named (absolute directory path) ∧
        ∀ name : String, Location.Entered name.toList → '/' ∉ name.toList →
          Location.named (front ++ "/" ++ name ++ "/../" ++ back) =
            Location.named (absolute directory path) := by
  refine ⟨.ofPath (absolute directory path), ?_, rfl, Location.ofPath_eq_named_iff _, ?_⟩
  · simp only [ofPath, noBucket, noMemory]
  · rintro front back same
    rw [same]
    exact ⟨Location.named_dot front back, fun name entered whole =>
      Location.named_back entered whole front back⟩

/-- A path that goes into a directory and out again. -/
theorem local_path_named_iff_back :
    ∃ location, ofPath "/home/u" "d/../x" = .ok ⟨.files, location⟩ ∧
      location.segments = ["home", "u", "d", "%2E%2E", "x"] ∧
      location ≠ Location.named (absolute "/home/u" "d/../x") := by
  obtain ⟨location, resolved, segments, named, -⟩ :=
    @local_path_named_iff "d/../x" (by decide) (by decide) "/home/u"
  refine ⟨location, resolved, segments.trans (by decide), fun same => ?_⟩
  have literal := named.mp same ['.', '.'] (by decide) (by decide)
  exact literal.2.1 rfl

/-- A path with one dot does not resolve to the file that it names. -/
theorem not_local_path_named :
    ¬ ∀ directory path, afterScheme? bucketScheme path = none →
      afterScheme? memoryScheme path = none →
      ofPath directory path = .ok ⟨.files, Location.named (absolute directory path)⟩ := by
  intro named
  have resolved := named "/" "/tmp/./x" (by decide) (by decide)
  have kept : ofPath "/" "/tmp/./x" = .ok ⟨.files, ⟨["tmp", "%2E", "x"]⟩⟩ := rfl
  have meant : Location.named (absolute "/" "/tmp/./x") = ⟨["tmp", "x"]⟩ := by decide
  rw [kept, meant] at resolved
  simp at resolved

end Place

end Columnar
