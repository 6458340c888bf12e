import Columnar.Proofs.Store.Names
import Columnar.Proofs.Text.Splitting

namespace Columnar.Store.BucketUrl

/-!
Paths of bucket URLs behind which something is written.

What is written behind a slash adds its own segments.  Blanks that are written behind a path become
part of its last segment, which is another one then, and no longer one of dots.
-/

section Segments

variable {segment : List Char} {path : List (List Char)}

theorem mem_plainDots {char : Char} (plain : char ∉ ['%', '2', 'e', 'E'])
    (member : char ∈ segment) : char ∈ plainDots segment := by
  fun_induction plainDots segment with
  | case1 rest ih =>
      simp only [List.mem_cons, List.not_mem_nil, or_false, not_or] at plain member
      grind
  | case2 rest ih =>
      simp only [List.mem_cons, List.not_mem_nil, or_false, not_or] at plain member
      grind
  | case3 first rest _ _ ih =>
      rcases List.mem_cons.mp member with rfl | later
      · exact List.mem_cons_self
      · exact List.mem_cons_of_mem _ (ih later)
  | case4 => exact member

/-- A segment that is no dot segment, not even with its dots escaped. -/
def Kept (segment : List Char) : Prop :=
  plainDots segment ≠ ['.'] ∧ plainDots segment ≠ ['.', '.']

theorem kept_of_mem {char : Char} (other : char ∉ ['.', '%', '2', 'e', 'E'])
    (member : char ∈ segment) : Kept segment := by
  have plain : char ∉ ['%', '2', 'e', 'E'] := fun inside => other (List.mem_cons_of_mem _ inside)
  have written := mem_plainDots plain member
  constructor
  · intro dot
    rw [dot] at written
    simp_all
  · intro dots
    rw [dots] at written
    simp_all

theorem kept_nil : Kept [] := by
  constructor <;> decide

theorem addSegment_kept (kept : Kept segment) : addSegment path segment = segment :: path := by
  simp only [addSegment, if_neg kept.1, if_neg kept.2]

/-- A segment is added, or at most the last one dropped. -/
theorem addSegment_cases (path : List (List Char)) (segment : List Char) :
    (Kept segment ∧ addSegment path segment = segment :: path) ∨
      addSegment path segment <:+ path := by
  by_cases dots : plainDots segment = ['.', '.']
  · refine .inr ?_
    cases path with
    | nil => simp [addSegment, dots]
    | cons last before =>
        by_cases drive : namesDrive last = true
        · simp [addSegment, dots, drive]
        · simp [addSegment, dots, drive]
  by_cases dot : plainDots segment = ['.']
  · refine .inr ?_
    simp [addSegment, dot]
  · exact .inl ⟨⟨dot, dots⟩, addSegment_kept ⟨dot, dots⟩⟩

theorem foldl_addSegment_kept {segments : List (List Char)}
    (kept : ∀ segment ∈ segments, Kept segment) :
    segments.foldl addSegment path = segments.reverse ++ path := by
  induction segments generalizing path with
  | nil => rfl
  | cons segment rest ih =>
      obtain ⟨first, others⟩ := List.forall_mem_cons.mp kept
      rw [List.foldl_cons, addSegment_kept first, ih others, List.reverse_cons, List.append_assoc,
        List.singleton_append]

end Segments

section Walk

variable {chars back : List Char}

/-- A path's segments as it writes them. -/
def written (chars : List Char) : List (List Char) :=
  (chars.splitOn '/').map (percentEncode reservedInPath)

/-- A path without the slash in front. -/
def relative (chars : List Char) : List Char :=
  if chars.head? = some '/' then chars.tail else chars

theorem readPath_eq (some : chars ≠ []) :
    readPath chars = ((written (relative chars)).foldl addSegment []).reverse := by
  obtain ⟨first, rest, rfl⟩ := List.exists_cons_of_ne_nil some
  simp [readPath, written, relative]

theorem written_slash (front back : List Char) :
    written (front ++ '/' :: back) = written front ++ written back := by
  rw [written, List.splitOn_append_cons_self, List.map_append]
  rfl

theorem written_whole (whole : '/' ∉ chars) :
    written chars = [percentEncode reservedInPath chars] := by
  rw [written, List.splitOn_eq_singleton whole, List.map_singleton]

/-- The segments of a path that name something. -/
def visible (chars : List Char) : List (List Char) := (readPath chars).filter (· ≠ [])

theorem relative_append (some : chars ≠ []) :
    relative (chars ++ back) = relative chars ++ back := by
  obtain ⟨first, rest, rfl⟩ := List.exists_cons_of_ne_nil some
  by_cases slash : first = '/'
  · simp [relative, slash]
  · simp [relative, slash]

/-- Segments behind a slash are added to those in front of it. -/
theorem visible_slash (chars : List Char) (kept : ∀ segment ∈ written back, Kept segment) :
    visible (chars ++ '/' :: back) = visible chars ++ (written back).filter (· ≠ []) := by
  have some : chars ++ '/' :: back ≠ [] := by simp
  by_cases empty : chars = []
  · subst empty
    have inner : relative ([] ++ '/' :: back) = back := by simp [relative]
    rw [visible, readPath_eq some, inner, foldl_addSegment_kept kept, List.append_nil,
      List.reverse_reverse]
    rfl
  · rw [visible, visible, readPath_eq some, readPath_eq empty, relative_append empty,
      written_slash, List.foldl_append, foldl_addSegment_kept kept, List.reverse_append,
      List.reverse_reverse, List.filter_append]

theorem visible_slashes (chars : List Char) (only : ∀ char ∈ back, char = '/') :
    visible (chars ++ back) = visible chars := by
  cases back with
  | nil => rw [List.append_nil]
  | cons slash rest =>
      obtain ⟨rfl, others⟩ := List.forall_mem_cons.mp only
      have empty : ∀ segment ∈ written rest, segment = [] := by
        intro segment member
        obtain ⟨piece, inside, rfl⟩ := List.mem_map.mp member
        rw [Text.eq_nil_of_mem_splitOn others inside, percentEncode_nil]
      have kept : ∀ segment ∈ written rest, Kept segment := by
        intro segment member
        rw [empty segment member]
        exact kept_nil
      have none : (written rest).filter (· ≠ []) = [] :=
        List.filter_eq_nil_iff.mpr fun segment member => by simp [empty segment member]
      rw [visible_slash chars kept, none, List.append_nil]

theorem visible_name (chars : List Char) (file : StoredFile) :
    visible (chars ++ '/' :: file.name.toList) = visible chars ++ [file.name.toList] := by
  have free : ∀ char ∈ StoredFile.alphabet, Unescaped reservedInPath char :=
    List.all_iff_forall_prop.mp (by decide)
  have whole : written file.name.toList = [file.name.toList] := by
    rw [written_whole file.slash_not_mem_name, StoredFile.percentEncode_name free]
  have kept : Kept file.name.toList := by
    rcases file.head?_name with first | first
    · exact kept_of_mem (by decide) (List.mem_of_mem_head? first)
    · exact kept_of_mem (by decide) (List.mem_of_mem_head? first)
  have only : [file.name.toList].filter (· ≠ []) = [file.name.toList] :=
    List.filter_cons_of_pos (decide_eq_true file.name_ne_nil)
  rw [visible_slash chars (by simpa [whole] using kept), whole, only]

/-- No part of a URL's path has a slash. -/
theorem slash_not_mem_written {segment : List Char} (member : segment ∈ written chars) :
    '/' ∉ segment := by
  obtain ⟨piece, inside, rfl⟩ := List.mem_map.mp member
  intro slash
  rcases mem_percentEncode slash with kept | escaped
  · exact Text.not_mem_of_mem_splitOn inside kept
  · exact absurd escaped (by decide)

theorem mem_foldl_addSegment {segment : List Char} {segments path : List (List Char)}
    (member : segment ∈ segments.foldl addSegment path) : segment ∈ segments ∨ segment ∈ path := by
  induction segments generalizing path with
  | nil => exact .inr member
  | cons first rest ih =>
      rcases ih member with later | before
      · exact .inl (List.mem_cons_of_mem _ later)
      rcases addSegment_cases path first with ⟨-, added⟩ | dropped
      · rw [added] at before
        rcases List.mem_cons.mp before with rfl | earlier
        · exact .inl List.mem_cons_self
        · exact .inr earlier
      · exact .inr (dropped.subset before)

theorem slash_not_mem_readPath {segment : List Char} (member : segment ∈ readPath chars) :
    '/' ∉ segment := by
  by_cases empty : chars = []
  · subst empty
    exact absurd member List.not_mem_nil
  · rw [readPath_eq empty, List.mem_reverse] at member
    rcases mem_foldl_addSegment member with added | none
    · exact slash_not_mem_written added
    · exact absurd none List.not_mem_nil

/-- A URL's key is located by the segments that name something. -/
theorem ofPath_key {host : String} {query : List Char} :
    Location.ofPath (key ⟨host, readPath chars, query⟩) =
      ⟨(visible chars).map Location.encodeSegment⟩ := by
  have shown (path : List (List Char)) : (path.dropWhile (· = [])).filter (· ≠ []) =
      path.filter (· ≠ []) := by
    induction path with
    | nil => rfl
    | cons first rest ih =>
        by_cases empty : first = []
        · rw [List.dropWhile_cons_of_pos (by simpa using empty), ih,
            List.filter_cons_of_neg (by simpa using empty)]
        · rw [List.dropWhile_cons_of_neg (by simpa using empty)]
  rw [Location.ofPath, key, String.toList_ofList, visible, ← shown (readPath chars)]
  by_cases none : (readPath chars).dropWhile (· = []) = []
  · rw [none]
    simp
  · rw [List.splitOn_intercalate '/' ?_ none]
    intro segment member
    exact slash_not_mem_readPath ((List.dropWhile_sublist _).subset member)

end Walk

section Blanks

variable {chars blanks : List Char}

/-- Characters that are blank at the end of a URL and count inside it. -/
def Blanks (chars : List Char) : Prop :=
  chars ≠ [] ∧ ∀ char ∈ chars, char.toNat ≤ 0x20 ∧ char ≠ '\t' ∧ char ≠ '\n' ∧ char ≠ '\r'

/-- The escapes of blanks are not those of dots. -/
theorem Blanks.kept (some : Blanks blanks) (front : List Char) :
    Kept (front ++ percentEncode reservedInPath blanks) := by
  have digit : ∀ value < 0x21, '0' ∈ percentEncode reservedInPath [Char.ofNat value] ∨
      '1' ∈ percentEncode reservedInPath [Char.ofNat value] := by
    decide
  obtain ⟨first, rest, rfl⟩ := List.exists_cons_of_ne_nil some.1
  have low := (some.2 first List.mem_cons_self).1
  rw [percentEncode_cons]
  rcases digit first.toNat (by omega) with zero | one
  · rw [Char.ofNat_toNat] at zero
    exact @kept_of_mem _ '0' (by decide) (by simp [zero])
  · rw [Char.ofNat_toNat] at one
    exact @kept_of_mem _ '1' (by decide) (by simp [one])

theorem Blanks.encode_ne_nil (some : Blanks blanks) (reserved : List Char) :
    percentEncode reserved (percentEncode reservedInPath blanks) ≠ [] := by
  intro none
  have inner := length_le_percentEncode reservedInPath blanks
  have outer := length_le_percentEncode reserved (percentEncode reservedInPath blanks)
  rw [none, List.length_nil] at outer
  exact some.1 (List.length_eq_zero_iff.mp (by omega))

theorem Blanks.slash_not_mem (some : Blanks blanks) : '/' ∉ blanks := by
  intro slash
  exact absurd (some.2 '/' slash).1 (by decide)

theorem Kept.encodeSegment {segment : List Char} (kept : Kept segment) :
    Location.encodeSegment segment = String.ofList (percentEncode Location.reserved segment) := by
  refine Location.encodeSegment_of_ne ?_ ?_
  · rintro rfl
    exact kept.1 rfl
  · rintro rfl
    exact kept.2 rfl

/-- Blanks behind a path make it another one. -/
theorem visible_blanks_ne (path : chars ≠ []) (some : Blanks blanks) :
    (visible (chars ++ blanks)).map Location.encodeSegment ≠
      (visible chars).map Location.encodeSegment := by
  obtain ⟨before, last, split, longer⟩ :=
    Text.splitOn_append_last (relative chars) some.slash_not_mem
  let walked := (before.map (percentEncode reservedInPath)).foldl addSegment []
  let ending := percentEncode reservedInPath last
  have plain : visible chars = (addSegment walked ending).reverse.filter (· ≠ []) := by
    rw [visible, readPath_eq path, written, split, List.map_append, List.foldl_append]
    rfl
  have longEnding : Kept (ending ++ percentEncode reservedInPath blanks) := some.kept ending
  have blank : visible (chars ++ blanks) = walked.reverse.filter (· ≠ []) ++
      [ending ++ percentEncode reservedInPath blanks] := by
    have shown : ending ++ percentEncode reservedInPath blanks ≠ [] := by
      intro none
      refine some.encode_ne_nil [] ?_
      rw [(List.append_eq_nil_iff.mp none).2, percentEncode_nil]
    have only : [ending ++ percentEncode reservedInPath blanks].filter (· ≠ []) =
        [ending ++ percentEncode reservedInPath blanks] :=
      List.filter_cons_of_pos (decide_eq_true shown)
    rw [visible, readPath_eq (by simp [path]), written, relative_append path, longer,
      List.map_append, List.foldl_append, List.map_singleton, percentEncode_append,
      List.foldl_cons, List.foldl_nil, addSegment_kept longEnding, List.reverse_cons,
      List.filter_append, only]
  rw [plain, blank]
  intro same
  have lengths := congrArg List.length same
  simp only [List.length_map, List.length_append, List.length_singleton] at lengths
  rcases addSegment_cases walked ending with ⟨kept, added⟩ | dropped
  · by_cases empty : ending = []
    · rw [added, List.reverse_cons, List.filter_append,
        List.filter_cons_of_neg (by simpa using empty)] at lengths
      simp at lengths
    · rw [added, List.reverse_cons, List.filter_append,
        List.filter_cons_of_pos (by simpa using empty), List.filter_nil, List.map_append,
        List.map_append, List.append_cancel_left_eq, List.map_singleton, List.map_singleton,
        List.cons.injEq, longEnding.encodeSegment, kept.encodeSegment, String.ofList_inj,
        percentEncode_append, List.append_right_eq_self] at same
      exact some.encode_ne_nil Location.reserved same.1
  · have fewer := (dropped.sublist.reverse.filter (· ≠ [])).length_le
    omega

end Blanks

end Columnar.Store.BucketUrl
