import Columnar.Proofs.Read.Files
import Columnar.Proofs.Store.BucketFiles

namespace Columnar.Read

/-!
Paths of output files.

A file's name is written behind the path of the directory, without the slashes at its end.
Whether the path then names that file in that directory depends on what else the path says: a
query, blanks at the end of a URL, or nothing but a scheme.
-/

section Schemes

variable {scheme path : String} {rest : List Char}

theorem afterScheme?_eq_some_iff :
    Place.afterScheme? scheme path = some rest ↔ path = scheme ++ String.ofList rest := by
  constructor
  · intro behind
    simp only [Place.afterScheme?, Option.ite_none_right_eq_some, Option.some.injEq] at behind
    obtain ⟨front, rfl⟩ := behind
    obtain ⟨back, whole⟩ := List.isPrefixOf_iff_prefix.mp front
    rw [← String.toList_inj, String.toList_append, String.toList_ofList, ← whole,
      ← String.length_toList, List.drop_left]
  · rintro rfl
    rw [Place.afterScheme?_append, String.toList_ofList]

theorem afterScheme?_eq_none_iff :
    Place.afterScheme? scheme path = none ↔ ¬ scheme.toList <+: path.toList := by
  simp only [Place.afterScheme?, ite_eq_right_iff, reduceCtorEq, imp_false,
    List.isPrefixOf_iff_prefix]

/-- A text without the slashes at its end. -/
def trimmed (chars : List Char) : List Char := (chars.reverse.dropWhile (· = '/')).reverse

theorem trimmed_prefix_self (chars : List Char) : trimmed chars <+: chars := by
  rw [trimmed, ← List.reverse_suffix, List.reverse_reverse]
  exact List.dropWhile_suffix _

/-- What was dropped from a text. -/
def slashesOf (chars : List Char) : List Char := (chars.reverse.takeWhile (· = '/')).reverse

theorem trimmed_append_slashesOf (chars : List Char) :
    trimmed chars ++ slashesOf chars = chars := by
  rw [trimmed, slashesOf, ← List.reverse_append, List.takeWhile_append_dropWhile,
    List.reverse_reverse]

theorem eq_slash_of_mem_slashesOf {chars : List Char} {char : Char}
    (member : char ∈ slashesOf chars) : char = '/' :=
  of_decide_eq_true
    (List.mem_takeWhile_imp (p := fun char => decide (char = '/')) (List.mem_reverse.mp member))

theorem trimmed_ne_append_slash (chars before : List Char) : trimmed chars ≠ before ++ ['/'] := by
  intro ends
  have head := List.head?_dropWhile_not (fun char => decide (char = '/')) chars.reverse
  have shape : chars.reverse.dropWhile (· = '/') = '/' :: before.reverse := by
    rw [← List.reverse_inj, ← trimmed, ends, List.reverse_cons, List.reverse_reverse]
  rw [shape] at head
  simp at head

theorem toList_outputPath (directory : String) (column : Nat) :
    (outputPath directory column).toList =
      trimmed directory.toList ++ '/' :: (StoredFile.text column).name.toList := by
  simp [outputPath, trimmed, String.toList_append]

/-- A path of an output file has a scheme only if the directory's path has it. -/
theorem afterScheme?_outputPath_none {start : List Char}
    (double : scheme.toList = start ++ ['/', '/'])
    (none : Place.afterScheme? scheme path = none) (column : Nat) :
    Place.afterScheme? scheme (outputPath path column) = Option.none := by
  rw [afterScheme?_eq_none_iff, toList_outputPath]
  rw [afterScheme?_eq_none_iff] at none
  intro front
  rcases Nat.lt_or_ge (trimmed path.toList).length scheme.toList.length with longer | within
  · obtain ⟨ending, whole⟩ :=
      List.prefix_of_prefix_length_le (List.prefix_append ..) front (Nat.le_of_lt longer)
    rw [← whole, List.prefix_append_right_inj] at front
    cases ending with
    | nil =>
        rw [List.append_nil] at whole
        rw [whole] at longer
        exact absurd longer (Nat.lt_irrefl _)
    | cons slash others =>
        obtain ⟨rfl, named⟩ := List.cons_prefix_cons.mp front
        rcases List.eq_nil_or_concat others with rfl | ⟨before, last, rfl⟩
        · -- The first slash of the scheme's two would end the trimmed text.
          have twice : trimmed path.toList ++ ['/'] = (start ++ ['/']) ++ ['/'] := by
            rw [whole, double, List.append_assoc]
            rfl
          exact trimmed_ne_append_slash _ start (List.append_inj_left' twice rfl)
        · -- The second one would stand in the name.
          have ends : trimmed path.toList ++ '/' :: before.concat last =
              (start ++ ['/']) ++ ['/'] := by
            rw [whole, double, List.append_assoc]
            rfl
          rw [List.concat_eq_append, ← List.cons_append, ← List.append_assoc] at ends
          have slash := List.cons.inj (List.append_inj_right' ends rfl) |>.1
          refine (StoredFile.text column).slash_not_mem_name (named.subset ?_)
          rw [slash]
          simp
  · have whole := List.prefix_of_prefix_length_le front (List.prefix_append ..) within
    exact none (whole.trans (trimmed_prefix_self path.toList))

/-- A scheme with nothing but slashes behind it loses them, its own among them. -/
theorem toList_outputPath_slashes {start : List Char} (double : scheme.toList = start ++ ['/', '/'])
    (ends : trimmed start = start) (behind : Place.afterScheme? scheme path = some rest)
    (only : ∀ char ∈ rest, char = '/') (column : Nat) :
    (outputPath path column).toList = start ++ '/' :: (StoredFile.text column).name.toList := by
  have slashes : ∀ char ∈ (['/', '/'] ++ rest).reverse, decide (char = '/') = true := by
    intro char member
    rcases List.mem_append.mp (List.mem_reverse.mp member) with double | last
    · simpa using double
    · exact decide_eq_true (only char last)
  have bare : trimmed path.toList = start := by
    rw [afterScheme?_eq_some_iff.mp behind, String.toList_append, String.toList_ofList, double,
      List.append_assoc, trimmed, List.reverse_append, List.dropWhile_append_of_pos slashes]
    exact ends
  rw [toList_outputPath, bare]

theorem afterScheme?_outputPath_slashes {start : List Char}
    (double : scheme.toList = start ++ ['/', '/']) (ends : trimmed start = start)
    (behind : Place.afterScheme? scheme path = some rest) (only : ∀ char ∈ rest, char = '/')
    (column : Nat) : Place.afterScheme? scheme (outputPath path column) = none := by
  rw [afterScheme?_eq_none_iff, toList_outputPath_slashes double ends behind only, double]
  intro front
  rw [List.prefix_append_right_inj, List.cons_prefix_cons] at front
  exact (StoredFile.text column).slash_not_mem_name (front.2.subset List.mem_cons_self)

end Schemes

/-- Whether a name written behind the path of a directory names a file in it. -/
def TakesNames (directory output : String) : Prop :=
  match Place.afterScheme? Place.bucketScheme output with
  | some text => Store.BucketUrl.EndsInPath text
  | none =>
      match Place.afterScheme? Place.memoryScheme output with
      | some key => ∃ char ∈ key, char ≠ '/'
      | none => output ≠ "" ∨ (Location.ofPath directory).segments = []

section Kinds

variable {directory output : String} {place : Place} {rest : List Char}

theorem afterScheme?_outputPath {scheme : String}
    (behind : Place.afterScheme? scheme output = some rest) (named : ∃ char ∈ rest, char ≠ '/')
    (column : Nat) :
    Place.afterScheme? scheme (outputPath output column) =
      some (trimmed rest ++ '/' :: (StoredFile.text column).name.toList) := by
  have whole := afterScheme?_eq_some_iff.mp behind
  have some : ∃ char ∈ (String.ofList rest).toList, char ≠ '/' := by
    rwa [String.toList_ofList]
  rw [whole, outputPath_scheme some, Place.afterScheme?_append]
  simp [trimmed, String.toList_append]

theorem bucket_outputPath_iff (behind : Place.afterScheme? Place.bucketScheme output = some rest)
    (resolved : Place.ofPath directory output = .ok place) (column : Nat) :
    Place.ofPath directory (outputPath output column) =
        .ok (place.child (StoredFile.text column).name) ↔ Store.BucketUrl.EndsInPath rest := by
  have leads : Store.BucketUrl.Leads (Store.BucketUrl.significant rest) place :=
    (Store.BucketUrl.ofPath_bucket_iff behind).mp resolved
  have named : ∃ char ∈ rest, char ≠ '/' :=
    Classical.byContradiction fun none =>
      Store.BucketUrl.not_leads_slashes (fun char member =>
        Classical.byContradiction fun differs => none ⟨char, member, differs⟩) place leads
  rw [Store.BucketUrl.ofPath_bucket_iff (afterScheme?_outputPath behind named column)]
  rw [← trimmed_append_slashesOf rest] at leads
  have joined := Store.BucketUrl.leads_significant_iff
    (fun char member => eq_slash_of_mem_slashesOf member) leads (.text column)
  rwa [trimmed_append_slashesOf] at joined

theorem memory_outputPath_iff (behind : Place.afterScheme? Place.memoryScheme output = some rest)
    (resolved : Place.ofPath directory output = .ok place) (column : Nat) :
    Place.ofPath directory (outputPath output column) =
        .ok (place.child (StoredFile.text column).name) ↔ ∃ char ∈ rest, char ≠ '/' := by
  have whole := afterScheme?_eq_some_iff.mp behind
  rw [whole, Place.ofPath_memory] at resolved
  cases resolved
  by_cases named : ∃ char ∈ rest, char ≠ '/'
  · have listed : ∃ char ∈ (String.ofList rest).toList, char ≠ '/' := by
      rwa [String.toList_ofList]
    have inside := (located_memory "" listed).target (.empty directory) column
    rw [← whole] at inside
    exact iff_of_true inside named
  · refine iff_of_false (fun lands => ?_) named
    -- Only the scheme is left, and its slashes are lost too.
    have only : ∀ char ∈ rest, char = '/' := fun char member =>
      Classical.byContradiction fun differs => named ⟨char, member, differs⟩
    have chars := @toList_outputPath_slashes Place.memoryScheme output rest "memory:".toList rfl
      (by decide) behind only column
    have noBucket : Place.afterScheme? Place.bucketScheme (outputPath output column) = none := by
      rw [afterScheme?_eq_none_iff, chars]
      simp [Place.bucketScheme]
    have noMemory := @afterScheme?_outputPath_slashes Place.memoryScheme output rest
      "memory:".toList rfl (by decide) behind only column
    simp [Place.ofPath, noBucket, noMemory, Place.child] at lands

theorem ofPath_outputPath (output : String) (column : Nat) :
    Location.ofPath (outputPath output column) =
      (Location.ofPath output).child (StoredFile.text column).name := by
  rw [outputPath, Location.ofPath_name, Location.ofPath_trimmed]

theorem head?_outputPath (some : output ≠ "") (column : Nat) :
    (outputPath output column).toList.head? = Option.some '/' ↔
      output.toList.head? = Option.some '/' := by
  rw [toList_outputPath]
  have parts := trimmed_append_slashesOf output.toList
  cases kept : trimmed output.toList with
  | nil =>
      rw [kept, List.nil_append] at parts
      refine iff_of_true rfl ?_
      cases chars : output.toList with
      | nil => exact absurd (String.toList_eq_nil_iff.mp chars) some
      | cons first others =>
          have slash : first ∈ slashesOf output.toList := by
            rw [parts, chars]
            exact List.mem_cons_self
          rw [eq_slash_of_mem_slashesOf slash]
          rfl
  | cons first others =>
      rw [← parts, kept]
      rfl

theorem files_outputPath_iff (noBucket : Place.afterScheme? Place.bucketScheme output = none)
    (noMemory : Place.afterScheme? Place.memoryScheme output = none)
    (resolved : Place.ofPath directory output = .ok place) (column : Nat) :
    Place.ofPath directory (outputPath output column) =
        .ok (place.child (StoredFile.text column).name) ↔
      output ≠ "" ∨ (Location.ofPath directory).segments = [] := by
  simp only [Place.ofPath, noBucket, noMemory] at resolved
  cases resolved
  have bucket :=
    @afterScheme?_outputPath_none Place.bucketScheme output "s3:".toList rfl noBucket column
  have memory :=
    @afterScheme?_outputPath_none Place.memoryScheme output "memory:".toList rfl noMemory column
  simp only [Place.ofPath, bucket, memory, Except.ok.injEq, Place.child, Place.mk.injEq, true_and]
  by_cases empty : output = ""
  · subst empty
    have outside : (outputPath "" column).toList.head? = some '/' := by
      rw [toList_outputPath]
      rfl
    have below : Place.absolute directory "" = directory ++ "/" ++ "" := rfl
    have nothing : Location.ofPath "" = ⟨[]⟩ := rfl
    rw [Place.absolute, if_pos outside, ofPath_outputPath, below, Location.child, Location.child,
      Location.ofPath_join, nothing, Location.mk.injEq, List.append_cancel_right_eq,
      List.append_nil]
    simp only [ne_eq, not_true_eq_false, false_or, eq_comm]
  · refine iff_of_true ?_ (.inl empty)
    by_cases slash : output.toList.head? = some '/'
    · rw [Place.absolute, if_pos ((head?_outputPath empty column).mpr slash), Place.absolute,
        if_pos slash, ofPath_outputPath]
    · rw [Place.absolute, if_neg fun head => slash ((head?_outputPath empty column).mp head),
        Place.absolute, if_neg slash]
      rw [Location.ofPath_join, Location.ofPath_join, ofPath_outputPath, Location.child,
        Location.child, List.append_assoc]

end Kinds

/-- A column's text is written to the requested directory exactly when the path of that directory
takes names.  Columns have files of their own there. -/
theorem outputPath_lands_iff {directory output : String} {place : Place}
    (resolved : Place.ofPath directory output = .ok place) :
    (∀ column, Place.ofPath directory (outputPath output column) =
        .ok (place.child (StoredFile.text column).name) ↔ TakesNames directory output) ∧
      ∀ first second, place.child (StoredFile.text first).name =
        place.child (StoredFile.text second).name → first = second := by
  constructor
  · intro column
    unfold TakesNames
    cases bucket : Place.afterScheme? Place.bucketScheme output with
    | some text => exact bucket_outputPath_iff bucket resolved column
    | none =>
        cases memory : Place.afterScheme? Place.memoryScheme output with
        | some key => exact memory_outputPath_iff memory resolved column
        | none => exact files_outputPath_iff bucket memory resolved column
  · intro first second same
    have files := StoredFile.child_injective (congrArg Place.location same)
    exact StoredFile.text.inj files

/-- A directory in a bucket, with a slash at its end. -/
theorem outputPath_lands_slash :
    ∃ place, Place.ofPath "/" "s3://b/dir/" = .ok place ∧
      Place.ofPath "/" (outputPath "s3://b/dir/" 3) =
        .ok (place.child (StoredFile.text 3).name) := by
  have resolved : Place.ofPath "/" "s3://b/dir/" = .ok ⟨.bucket "b" false, ⟨["dir"]⟩⟩ := rfl
  have takes : TakesNames "/" "s3://b/dir/" := by
    have plain : Store.BucketUrl.EndsInPath "b/dir/".toList := by decide
    exact plain
  exact ⟨_, resolved, ((outputPath_lands_iff resolved).1 3).mpr takes⟩

/-- Behind a query the name is no part of the path. -/
theorem not_outputPath_lands :
    ¬ ∀ directory output place, Place.ofPath directory output = .ok place →
      ∀ column, Place.ofPath directory (outputPath output column) =
        .ok (place.child (StoredFile.text column).name) := by
  intro lands
  have resolved : Place.ofPath "/" "s3://b/dir?anon=true" = .ok ⟨.bucket "b" true, ⟨["dir"]⟩⟩ := rfl
  have written : Place.ofPath "/" (outputPath "s3://b/dir?anon=true" 0) =
      .ok ⟨.bucket "b" false, ⟨["dir"]⟩⟩ := rfl
  have inside := lands _ _ _ resolved 0
  rw [written] at inside
  simp [Place.child] at inside

end Columnar.Read
