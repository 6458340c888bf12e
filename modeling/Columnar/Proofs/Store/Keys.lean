import Columnar.Proofs.Store.BucketFiles
import Columnar.Proofs.Store.LocalPaths

namespace Columnar

/-!
Keys that two kinds of path name.

Behind `memory://` a key is escaped once, when it becomes a location.  Behind `s3://` the URL
escapes it before that, so the two locations are one exactly when the URL finds nothing to escape
and no segment that it reads as dots.
-/

namespace Store.BucketUrl

section Hosts

variable {bucket : String}

/-- A name that can stand as the host of a URL. -/
def IsHost (bucket : String) : Prop :=
  bucket ≠ "" ∧ ∀ char ∈ bucket.toList, char ∉ forbiddenInHost

instance (bucket : String) : Decidable (IsHost bucket) :=
  decidable_of_iff _ (and_congr_right' List.all_iff_forall_prop)

/-- The name that a URL reads from a host. -/
def hostName (bucket : String) : String := String.ofList (percentEncode [] bucket.toList)

theorem IsHost.free (host : IsHost bucket) {mark : Char} (forbidden : mark ∈ forbiddenInHost) :
    mark ∉ bucket.toList :=
  fun member => host.2 mark member forbidden

theorem IsHost.authority (host : IsHost bucket) : authority bucket.toList = bucket.toList := by
  refine List.takeWhile_eq_self_iff.mpr fun char member => ?_
  rw [Bool.not_eq_true', endsAuthority]
  refine Bool.or_eq_false_iff.mpr ⟨Bool.or_eq_false_iff.mpr ⟨?_, ?_⟩, ?_⟩ <;>
    · refine decide_eq_false ?_
      rintro rfl
      exact host.free (by decide) member

theorem IsHost.hostAndPort (host : IsHost bucket) :
    hostAndPort bucket.toList = (bucket.toList, []) := by
  have noUser : (splitUser bucket.toList).2 = bucket.toList := by
    rw [splitUser_host, List.takeWhile_eq_self_iff.mpr, List.reverse_reverse]
    intro char member
    refine decide_eq_true ?_
    rintro rfl
    exact host.free (by decide) (List.mem_reverse.mp member)
  rw [BucketUrl.hostAndPort, noUser, ← List.nil_append bucket.toList,
    splitHost_append_host rfl (host.free (by decide))]
  rfl

theorem IsHost.readHost (host : IsHost bucket) :
    readHost bucket.toList = .ok (hostName bucket) := by
  have opened : bucket.toList.head? ≠ some '[' :=
    fun bracket => host.free (by decide) (List.mem_of_mem_head? bracket)
  have allowed : ¬ (bucket.toList.any fun char => forbiddenInHost.contains char) = true := by
    rw [List.any_eq_true]
    rintro ⟨char, member, forbidden⟩
    exact host.2 char member (List.contains_iff_mem.mp forbidden)
  rw [readHost_open opened, if_neg allowed, hostName]

/-- A host names its bucket, whatever path follows it. -/
theorem IsHost.names (host : IsHost bucket) : Names bucket.toList (hostName bucket) [] := by
  refine ⟨?_, ?_, ?_⟩
  · rw [host.hostAndPort]
    exact host.readHost
  · rw [host.hostAndPort]
    rfl
  · intro empty
    have lengths := length_le_percentEncode [] bucket.toList
    rw [hostName, String.ofList_eq_empty_iff] at empty
    rw [empty, List.length_nil] at lengths
    exact host.1 (String.toList_eq_nil_iff.mp (List.length_eq_zero_iff.mp (by omega)))

end Hosts

section Segments

variable {segments path : List (List Char)}

theorem length_foldl_addSegment_le (segments path : List (List Char)) :
    (segments.foldl addSegment path).length ≤ segments.length + path.length := by
  induction segments generalizing path with
  | nil => simp
  | cons segment rest ih =>
      have later := ih (addSegment path segment)
      have longer : (addSegment path segment).length ≤ path.length + 1 := by
        rcases addSegment_cases path segment with ⟨-, added⟩ | dropped
        · rw [added, List.length_cons]
        · exact Nat.le_succ_of_le dropped.length_le
      rw [List.foldl_cons, List.length_cons]
      omega

/-- A path as long as its text keeps every segment of it. -/
theorem kept_of_length
    (whole : segments.length + path.length ≤ (segments.foldl addSegment path).length) :
    ∀ segment ∈ segments, Kept segment := by
  induction segments generalizing path with
  | nil => simp
  | cons segment rest ih =>
      have later := length_foldl_addSegment_le rest (addSegment path segment)
      rw [List.foldl_cons, List.length_cons] at whole
      rcases addSegment_cases path segment with ⟨kept, added⟩ | dropped
      · rw [List.forall_mem_cons]
        refine ⟨kept, @ih (addSegment path segment) ?_⟩
        rw [added, List.length_cons, ← added]
        omega
      · have shorter := dropped.length_le
        omega

end Segments

/-- A segment that a URL reads as it is written. -/
def Verbatim (segment : List Char) : Prop :=
  Kept segment ∧ ∀ char ∈ segment, Unescaped reservedInPath char

instance (segment : List Char) : Decidable (Verbatim segment) :=
  @instDecidableAnd _ _ (inferInstanceAs (Decidable (_ ∧ _)))
    (decidable_of_iff _ List.all_iff_forall_prop)

section Keys

variable {key : List Char}

theorem visible_rooted (key : List Char) :
    visible ('/' :: key) = ((written key).foldl addSegment []).reverse.filter (· ≠ []) := by
  rw [visible, readPath_eq (List.cons_ne_nil _ _)]
  rfl

theorem written_ne_nil (entered : ∀ segment ∈ key.splitOn '/', segment ≠ []) :
    ∀ segment ∈ written key, segment ≠ [] := by
  intro segment member none
  obtain ⟨piece, inside, rfl⟩ := List.mem_map.mp member
  have lengths := length_le_percentEncode reservedInPath piece
  rw [none, List.length_nil] at lengths
  exact entered piece inside (List.length_eq_zero_iff.mp (by omega))

/-- A path that keeps all its segments locates them as they are escaped by the URL. -/
theorem visible_kept (some : ∀ segment ∈ key.splitOn '/', segment ≠ [])
    (kept : ∀ segment ∈ written key, Kept segment) :
    (visible ('/' :: key)).map Location.encodeSegment =
      (key.splitOn '/').map fun segment =>
        String.ofList (percentEncode Location.reserved (percentEncode reservedInPath segment)) := by
  have shown : (written key).filter (· ≠ []) = written key :=
    List.filter_eq_self.mpr fun segment member =>
      decide_eq_true (written_ne_nil some segment member)
  rw [visible_rooted, foldl_addSegment_kept kept, List.append_nil, List.reverse_reverse, shown,
    written, List.map_map]
  refine List.map_congr_left fun segment member => ?_
  exact (kept _ (List.mem_map_of_mem member)).encodeSegment

/-- A URL's path leads where its text does exactly when every segment is read as it is written. -/
theorem visible_eq_iff (entered : ∀ segment ∈ key.splitOn '/', Location.Entered segment) :
    (visible ('/' :: key)).map Location.encodeSegment =
        ((key.splitOn '/').filter (· ≠ [])).map Location.encodeSegment ↔
      ∀ segment ∈ key.splitOn '/', Verbatim segment := by
  have some : ∀ segment ∈ key.splitOn '/', segment ≠ [] :=
    fun segment member => (entered segment member).1
  have shown : (key.splitOn '/').filter (· ≠ []) = key.splitOn '/' :=
    List.filter_eq_self.mpr fun segment member => decide_eq_true (some segment member)
  have percent : '%' ∈ Location.reserved := by decide
  have same_iff (kept : ∀ segment ∈ written key, Kept segment) :
      (visible ('/' :: key)).map Location.encodeSegment =
          (key.splitOn '/').map Location.encodeSegment ↔
        ∀ segment ∈ key.splitOn '/', ∀ char ∈ segment, Unescaped reservedInPath char := by
    rw [visible_kept some kept, List.map_inj_left]
    refine forall₂_congr fun segment member => ?_
    obtain ⟨-, dot, dots⟩ := entered segment member
    rw [Location.encodeSegment_of_ne dot dots, String.ofList_inj, percentEncode_twice_iff percent]
  rw [shown]
  constructor
  · intro same
    have kept : ∀ segment ∈ written key, Kept segment := by
      refine @kept_of_length _ [] ?_
      have lengths := congrArg List.length same
      rw [visible_rooted, List.length_map, List.length_map] at lengths
      have most := List.length_filter_le (· ≠ []) ((written key).foldl addSegment []).reverse
      rw [List.length_reverse] at most
      rw [written, List.length_map, List.length_nil, ← written]
      omega
    intro segment member
    have unescaped := (same_iff kept).mp same segment member
    refine ⟨?_, unescaped⟩
    rw [← percentEncode_eq_self_iff.mpr unescaped]
    exact kept _ (List.mem_map_of_mem member)
  · intro verbatim
    refine (same_iff ?_).mpr fun segment member => (verbatim segment member).2
    intro segment member
    obtain ⟨piece, inside, rfl⟩ := List.mem_map.mp member
    rw [percentEncode_eq_self_iff.mpr (verbatim piece inside).2]
    exact (verbatim piece inside).1

/-- Without a mark the whole text is a path, and no query asks to be anonymous. -/
theorem place_unmarked {chars : List Char} (unmarked : ¬ Marked chars) (bucket : String) :
    place bucket chars =
      ⟨.bucket bucket false, ⟨(visible chars).map Location.encodeSegment⟩⟩ := by
  have location := location_place bucket chars
  rw [pathText_unmarked unmarked] at location
  have known : (inBucket bucket chars).isAnonymous = false := by
    rw [inBucket, queryText_unmarked unmarked]
    rfl
  rw [← location, ← known]
  rfl

end Keys

end Store.BucketUrl

namespace Place

open Store.BucketUrl

/-- A key whose segments name something, and of which a URL drops no character. -/
structure IsKey (key : String) : Prop where
  entered : ∀ segment ∈ key.toList.splitOn '/', Location.Entered segment
  shown : ∀ char ∈ key.toList, 0x20 ≤ char.toNat
  unmarked : ¬ Marked key.toList
  ends : key.toList.getLast? ≠ some ' '

variable {bucket key : String}

theorem IsKey.toList_ne_nil (named : IsKey key) : key.toList ≠ [] := by
  intro none
  have entered := named.entered [] (by simp [none])
  exact entered.1 rfl

/-- Every character counts in a URL that ends in a key. -/
theorem IsKey.significant (named : IsKey key) (host : IsHost bucket) :
    significant (bucket.toList ++ '/' :: key.toList) = bucket.toList ++ '/' :: key.toList := by
  obtain ⟨before, last, whole⟩ :=
    (List.eq_nil_or_concat key.toList).resolve_left named.toList_ne_nil
  rw [List.concat_eq_append] at whole
  have high : 0x20 < last.toNat := by
    have low := named.shown last (by simp [whole])
    refine Nat.lt_of_le_of_ne low fun blank => named.ends ?_
    have space : last = ' ' := by
      rw [← Char.ofNat_toNat last, ← blank]
    rw [whole, List.getLast?_concat, space]
  have ends : stray (bucket.toList ++ '/' :: key.toList) = [] := by
    rw [whole, ← List.cons_append, ← List.append_assoc]
    exact stray_eq_nil high _
  have unbroken : withoutBreaks (bucket.toList ++ '/' :: key.toList) =
      bucket.toList ++ '/' :: key.toList := by
    refine List.filter_eq_self.mpr fun char member => decide_eq_true ?_
    have free (mark : Char) (forbidden : mark ∈ forbiddenInHost) (low : mark.toNat < 0x20) :
        char ≠ mark := by
      rintro rfl
      rw [List.mem_append, List.mem_cons] at member
      rcases member with inHost | rfl | inKey
      · exact host.free forbidden inHost
      · exact absurd low (by decide)
      · exact absurd (named.shown char inKey) (by omega)
    exact ⟨free '\t' (by decide) (by decide), free '\n' (by decide) (by decide),
      free '\r' (by decide) (by decide)⟩
  have parts := significant_append_stray (bucket.toList ++ '/' :: key.toList)
  rwa [ends, List.append_nil, unbroken] at parts

/-- A key in a bucket resolves to a location in it. -/
theorem IsKey.ofPath_bucket (named : IsKey key) (host : IsHost bucket) (directory : String) :
    ofPath directory (bucketScheme ++ (bucket ++ "/" ++ key)) =
      .ok ⟨.bucket (hostName bucket) false,
        ⟨(visible ('/' :: key.toList)).map Location.encodeSegment⟩⟩ := by
  have text : (bucket ++ "/" ++ key).toList = bucket.toList ++ '/' :: key.toList := by
    simp [String.toList_append]
  have unmarked : ¬ Marked ('/' :: key.toList) := by
    rintro ⟨char, member, mark⟩
    rcases List.mem_cons.mp member with rfl | inside
    · exact absurd mark (by decide)
    · exact named.unmarked ⟨char, inside, mark⟩
  obtain ⟨front, behind⟩ :=
    @authority_append bucket.toList ('/' :: key.toList) (.inr (authority_slash _))
  have nothing : afterAuthority bucket.toList = [] := by
    have both := authority_append_after bucket.toList
    rwa [host.authority, List.append_right_eq_self] at both
  refine (ofPath_bucket_iff (afterScheme?_append _ _)).mpr ⟨hostName bucket, [], ?_, ?_⟩
  · rw [text, named.significant host, front, host.authority]
    exact host.names
  · rw [text, named.significant host, behind, nothing, List.nil_append, List.nil_append,
      place_unmarked unmarked]

/-- A key names one location in a bucket and in memory exactly when a URL reads each segment of it
as it is written. -/
theorem key_location_iff (named : IsKey key) (host : IsHost bucket) (directory : String) :
    ∃ inBucket inMemory,
      ofPath directory (bucketScheme ++ (bucket ++ "/" ++ key)) =
        .ok ⟨.bucket (hostName bucket) false, inBucket⟩ ∧
      ofPath directory (memoryScheme ++ key) = .ok ⟨.memory, inMemory⟩ ∧
      (inBucket = inMemory ↔ ∀ segment ∈ key.toList.splitOn '/', Verbatim segment) := by
  refine ⟨_, _, named.ofPath_bucket host directory, ofPath_memory directory key, ?_⟩
  rw [Location.ofPath, Location.mk.injEq]
  exact visible_eq_iff named.entered

/-- A key that a URL reads as it is written, though a location escapes it. -/
theorem key_location_iff_percent :
    IsKey "x/100%~" ∧ IsHost "b" ∧
      ∃ location, ofPath "/" "s3://b/x/100%~" = .ok ⟨.bucket "b" false, location⟩ ∧
        ofPath "/" "memory://x/100%~" = .ok ⟨.memory, location⟩ := by
  have shown : ∀ char ∈ "x/100%~".toList, 0x20 ≤ char.toNat :=
    List.all_iff_forall_prop.mp (by decide)
  have named : IsKey "x/100%~" := ⟨by decide, shown, by decide, by decide⟩
  have host : IsHost "b" := by decide
  obtain ⟨inBucket, inMemory, first, second, same⟩ := key_location_iff named host "/"
  obtain rfl : inBucket = inMemory := same.mpr (by decide)
  exact ⟨named, host, inBucket, first, second⟩

/-- A blank is escaped twice in a bucket and not at all in memory. -/
theorem not_key_location :
    ¬ ∀ directory bucket key, IsHost bucket → IsKey key →
      (∀ char ∈ key.toList, char ≠ '\\' ∧ (char.toNat < 0x7F ∨ 0xA0 ≤ char.toNat)) →
      key.toList.head? ≠ some ' ' →
      ∃ inBucket inMemory,
        ofPath directory (bucketScheme ++ (bucket ++ "/" ++ key)) = .ok inBucket ∧
        ofPath directory (memoryScheme ++ key) = .ok inMemory ∧
        inBucket.location = inMemory.location := by
  intro same
  have plain : ∀ char ∈ "a b".toList,
      0x20 ≤ char.toNat ∧ char ≠ '\\' ∧ (char.toNat < 0x7F ∨ 0xA0 ≤ char.toNat) :=
    List.all_iff_forall_prop.mp (by decide)
  have named : IsKey "a b" :=
    ⟨by decide, fun char member => (plain char member).1, by decide, by decide⟩
  obtain ⟨inBucket, inMemory, first, second, one⟩ :=
    same "/" "b" "a b" (by decide) named (fun char member => (plain char member).2) (by decide)
  have escaped : ofPath "/" (bucketScheme ++ ("b" ++ "/" ++ "a b")) =
      .ok ⟨.bucket "b" false, ⟨["a%2520b"]⟩⟩ := rfl
  have unescaped : ofPath "/" (memoryScheme ++ "a b") = .ok ⟨.memory, ⟨["a b"]⟩⟩ := rfl
  rw [escaped] at first
  rw [unescaped] at second
  cases first
  cases second
  exact absurd one (by decide)

end Place

end Columnar
