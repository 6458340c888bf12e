import Columnar.Proofs.Store.Buckets

namespace Columnar.Store.BucketUrl

/-!
Files in directories that bucket URLs name.

A name behind a slash is added to the text of a URL and not to the path that is read from it.  The
two agree when the path runs up to the end of the text: when no query and no fragment follows it,
and no blanks that count only when something stands behind them.
-/

/-- A text without the characters that count nowhere in a URL. -/
def withoutBreaks (chars : List Char) : List Char :=
  chars.filter fun char => char ≠ '\t' ∧ char ≠ '\n' ∧ char ≠ '\r'

/-- The blanks at the end of a text, which do not count there, and would elsewhere. -/
def stray (chars : List Char) : List Char :=
  withoutBreaks (chars.reverse.takeWhile fun char => char.toNat ≤ 0x20).reverse

section Ends

variable {chars front back : List Char}

theorem withoutBreaks_append (front back : List Char) :
    withoutBreaks (front ++ back) = withoutBreaks front ++ withoutBreaks back :=
  List.filter_append ..

theorem withoutBreaks_eq_self (none : ∀ char ∈ chars, 0x20 < char.toNat) :
    withoutBreaks chars = chars := by
  refine List.filter_eq_self.mpr fun char member => decide_eq_true ?_
  have high := none char member
  refine ⟨?_, ?_, ?_⟩ <;> rintro rfl <;> exact absurd high (by decide)

theorem significant_append_stray (chars : List Char) :
    significant chars ++ stray chars = withoutBreaks chars := by
  have parts : (chars.reverse.dropWhile fun char => char.toNat ≤ 0x20).reverse ++
      (chars.reverse.takeWhile fun char => char.toNat ≤ 0x20).reverse = chars := by
    rw [← List.reverse_append, List.takeWhile_append_dropWhile, List.reverse_reverse]
  calc significant chars ++ stray chars
      = withoutBreaks ((chars.reverse.dropWhile fun char => char.toNat ≤ 0x20).reverse ++
          (chars.reverse.takeWhile fun char => char.toNat ≤ 0x20).reverse) :=
        (withoutBreaks_append _ _).symm
    _ = withoutBreaks chars := by rw [parts]

theorem stray_eq_nil {last : Char} (high : 0x20 < last.toNat) (front : List Char) :
    stray (front ++ [last]) = [] := by
  have none : ((front ++ [last]).reverse.takeWhile fun char => char.toNat ≤ 0x20) = [] := by
    rw [List.reverse_append, List.reverse_singleton, List.singleton_append]
    exact List.takeWhile_cons_of_neg (by simpa using high)
  rw [stray, none]
  rfl

/-- Behind what is not blank every other character counts. -/
theorem significant_append (high : ∀ char ∈ back, 0x20 < char.toNat) (some : back ≠ [])
    (front : List Char) : significant (front ++ back) = withoutBreaks front ++ back := by
  obtain ⟨before, last, rfl⟩ := (List.eq_nil_or_concat back).resolve_left some
  rw [List.concat_eq_append] at *
  have ends : stray (front ++ (before ++ [last])) = [] := by
    rw [← List.append_assoc]
    exact stray_eq_nil (high last (by simp)) _
  have whole := significant_append_stray (front ++ (before ++ [last]))
  rwa [ends, List.append_nil, withoutBreaks_append, withoutBreaks_eq_self high] at whole

theorem stray_eq_nil_or (chars : List Char) : stray chars = [] ∨ Blanks (stray chars) := by
  by_cases none : stray chars = []
  · exact .inl none
  · refine .inr ⟨none, fun char member => ?_⟩
    obtain ⟨inside, counts⟩ := List.mem_filter.mp member
    have low := List.mem_takeWhile_imp (p := fun char : Char => decide (char.toNat ≤ 0x20))
      (List.mem_reverse.mp inside)
    exact ⟨of_decide_eq_true low, of_decide_eq_true counts⟩

theorem marked_withoutBreaks : Marked (withoutBreaks chars) ↔ Marked chars := by
  constructor
  · rintro ⟨char, member, mark⟩
    exact ⟨char, (List.mem_filter.mp member).1, mark⟩
  · rintro ⟨char, member, mark⟩
    refine ⟨char, List.mem_filter.mpr ⟨member, ?_⟩, mark⟩
    rcases mark with rfl | rfl <;> decide

theorem marked_iff_afterAuthority : Marked chars ↔ Marked (afterAuthority chars) := by
  constructor
  · intro marked
    rw [← authority_append_after chars, marked_append] at marked
    exact marked.resolve_left (authority_unmarked chars)
  · intro marked
    rw [← authority_append_after chars, marked_append]
    exact .inr marked

end Ends

theorem Names.unique {text : List Char} {bucket other : String} {rest after : List Char}
    (first : Names text bucket rest) (second : Names text other after) :
    bucket = other ∧ rest = after :=
  ⟨Except.ok.inj (first.host.symm.trans second.host),
    Except.ok.inj (first.port.symm.trans second.port)⟩

section Joining

variable {front blanks slashes rest : List Char} {bucket : String}

theorem Names.not_marked_path (names : Names (authority front) bucket rest)
    (unmarked : ¬ Marked front) : ¬ Marked (rest ++ afterAuthority front) := by
  rw [marked_append]
  exact fun marked => marked.elim names.unmarked fun inner =>
    unmarked (marked_iff_afterAuthority.mpr inner)

/-- The place that a URL names, in the bucket of its authority. -/
def Leads (chars : List Char) (found : Place) : Prop :=
  ∃ bucket rest, Names (authority chars) bucket rest ∧
    found = place bucket (rest ++ afterAuthority chars)

theorem child_location_ne (found : Place) (name : String) :
    (found.child name).location ≠ found.location := by
  intro same
  have lengths := congrArg (fun location => location.segments.length) same
  simp [Place.child, Location.child] at lengths

/-- A name behind a mark names no file of the directory. -/
theorem not_leads_marked (marked : Marked front) (names : Names (authority front) bucket rest)
    (back : List Char) (name : String) :
    ¬ Leads (front ++ back)
      ((place bucket (rest ++ (afterAuthority front ++ slashes))).child name) := by
  rintro ⟨other, after, others, same⟩
  have inner : Marked (afterAuthority front) := marked_iff_afterAuthority.mp marked
  have ends : afterAuthority front ≠ [] := by
    intro none
    obtain ⟨char, member, -⟩ := none ▸ inner
    contradiction
  obtain ⟨unmoved, behind⟩ := @authority_append front back (.inl ends)
  rw [unmoved] at others
  obtain ⟨rfl, rfl⟩ := names.unique others
  have path : Marked (rest ++ afterAuthority front) := marked_append.mpr (.inr inner)
  have location := congrArg Place.location same
  rw [behind, ← List.append_assoc, ← List.append_assoc] at location
  have open' := location_marked path bucket back
  have closed := location_marked path bucket slashes
  exact child_location_ne _ _ (location.trans (open'.trans closed.symm))

/-- Blanks that count only in front of a name lead to another directory. -/
theorem not_leads_blanks (unmarked : ¬ Marked front) (names : Names (authority front) bucket rest)
    (some : Blanks blanks) (file : StoredFile) :
    ¬ Leads (front ++ (blanks ++ '/' :: file.name.toList))
      ((place bucket (rest ++ afterAuthority front)).child file.name) := by
  have plain := names.not_marked_path unmarked
  rintro ⟨other, after, others, same⟩
  by_cases ends : afterAuthority front = []
  · -- Nothing ends the authority in front of the blanks, so they belong to it.
    have parts := authority_append_after front
    rw [ends, List.append_nil] at parts
    have whole : authority (front ++ blanks) = front ++ blanks := by
      refine List.takeWhile_eq_self_iff.mpr fun char member => ?_
      rcases List.mem_append.mp member with inside | blank
      · rw [← parts] at inside
        exact List.mem_takeWhile_imp (p := fun char => !endsAuthority char) inside
      · have low := (some.2 char blank).1
        rw [Bool.not_eq_true', endsAuthority]
        refine Bool.or_eq_false_iff.mpr ⟨Bool.or_eq_false_iff.mpr ⟨?_, ?_⟩, ?_⟩ <;>
          · refine decide_eq_false ?_
            rintro rfl
            exact absurd low (by decide)
    obtain ⟨unmoved, behind⟩ :=
      @authority_append (front ++ blanks) ('/' :: file.name.toList) (.inr (authority_slash _))
    have none : afterAuthority (front ++ blanks) = [] := by
      have both := authority_append_after (front ++ blanks)
      rwa [whole, List.append_right_eq_self] at both
    rw [List.append_assoc] at unmoved behind
    rw [unmoved, whole] at others
    rw [behind, none, List.nil_append] at same
    obtain ⟨rfl, -⟩ := StoreKind.bucket.inj (congrArg Place.store same)
    rw [parts] at names
    obtain ⟨some', rfl⟩ := names.blanks some others
    have location := congrArg Place.location same
    rw [ends, List.append_nil] at location plain
    exact place_blanks plain some' some bucket file location.symm
  · obtain ⟨unmoved, behind⟩ :=
      @authority_append front (blanks ++ '/' :: file.name.toList) (.inl ends)
    rw [unmoved] at others
    obtain ⟨rfl, rfl⟩ := names.unique others
    have location := congrArg Place.location same
    rw [behind, ← List.append_assoc, ← List.append_assoc] at location
    exact place_blanks plain (by simp [ends]) some bucket file location.symm

/-- A name behind a URL's text names a file of the directory exactly when the path runs up to the
end of the text. -/
theorem leads_name_iff (only : ∀ char ∈ slashes, char = '/') {ending : List Char}
    (ends : ending = [] ∨ Blanks ending ∧ slashes = [])
    {found : Place} (leads : Leads (front ++ slashes) found) (file : StoredFile) :
    Leads (front ++ (ending ++ '/' :: file.name.toList)) (found.child file.name) ↔
      ¬ Marked front ∧ ending = [] := by
  obtain ⟨bucket, rest, names, rfl⟩ := leads
  have closed : authority slashes = [] := by
    cases slashes with
    | nil => rfl
    | cons slash others =>
        rw [only slash List.mem_cons_self]
        rfl
  obtain ⟨unmoved, behind⟩ := @authority_append front slashes (.inr closed)
  rw [unmoved] at names
  rw [behind]
  by_cases marked : Marked front
  · refine iff_of_false ?_ fun plain => plain.1 marked
    exact not_leads_marked marked names _ file.name
  rcases ends with rfl | ⟨some, rfl⟩
  · refine iff_of_true ⟨bucket, rest, ?_⟩ ⟨marked, rfl⟩
    obtain ⟨open', named⟩ :=
      @authority_append front ('/' :: file.name.toList) (.inr (authority_slash _))
    have plain := names.not_marked_path marked
    rw [List.nil_append, open', named]
    refine ⟨names, ?_⟩
    rw [← List.append_assoc, ← List.append_assoc]
    exact (place_name plain only bucket file).symm
  · refine iff_of_false ?_ fun plain => some.1 plain.2
    rw [List.append_nil]
    exact not_leads_blanks marked names some file

/-- A path ends where its text does when nothing else follows it there. -/
def EndsInPath (chars : List Char) : Prop := ¬ Marked chars ∧ stray chars = []

instance (chars : List Char) : Decidable (EndsInPath chars) :=
  inferInstanceAs (Decidable (_ ∧ _))

end Joining

/-- The same for texts as they are written, without the slashes at the end of the directory's. -/
theorem leads_significant_iff {text slashes : List Char} (only : ∀ char ∈ slashes, char = '/')
    {found : Place} (leads : Leads (significant (text ++ slashes)) found) (file : StoredFile) :
    Leads (significant (text ++ '/' :: file.name.toList)) (found.child file.name) ↔
      EndsInPath (text ++ slashes) := by
  have plain : ∀ char ∈ slashes, 0x20 < char.toNat := by
    intro char member
    rw [only char member]
    decide
  have unmarked := not_marked_slashes only
  have high : ∀ char ∈ '/' :: file.name.toList, 0x20 < char.toNat := by
    have free : ∀ char ∈ '/' :: StoredFile.alphabet, 0x20 < char.toNat :=
      List.all_iff_forall_prop.mp (by decide)
    exact fun char member => free char (slash_name_subset file member)
  rw [significant_append high (by simp), EndsInPath, marked_append, or_iff_left unmarked]
  by_cases none : slashes = []
  · subst none
    rw [List.append_nil] at leads ⊢
    have whole := significant_append_stray text
    have clean : ¬ Marked (stray text) := by
      rcases stray_eq_nil_or text with empty | some
      · rw [empty]
        exact unmarked
      · exact some.not_marked
    have marks : Marked text ↔ Marked (significant text) := by
      rw [← marked_withoutBreaks, ← whole, marked_append, or_iff_left clean]
    have ends : stray text = [] ∨ Blanks (stray text) ∧ ([] : List Char) = [] :=
      (stray_eq_nil_or text).imp_right fun some => ⟨some, rfl⟩
    rw [← whole, List.append_assoc, marks]
    exact leads_name_iff only ends (by rwa [List.append_nil]) file
  · obtain ⟨before, last, rfl⟩ := (List.eq_nil_or_concat slashes).resolve_left none
    have blank : stray (text ++ before.concat last) = [] := by
      rw [List.concat_eq_append, ← List.append_assoc]
      exact stray_eq_nil (plain last (by simp)) _
    rw [significant_append plain none] at leads
    have joined := leads_name_iff only (.inl rfl) leads file
    rw [List.nil_append] at joined
    rw [joined, blank, marked_withoutBreaks]

/-- Nothing but slashes names no bucket. -/
theorem not_leads_slashes {chars : List Char} (only : ∀ char ∈ chars, char = '/') (found : Place) :
    ¬ Leads (significant chars) found := by
  have same : authority (significant chars) = [] := by
    by_cases none : chars = []
    · rw [none]
      rfl
    · have high : ∀ char ∈ chars, 0x20 < char.toNat := by
        intro char member
        rw [only char member]
        decide
      have whole := significant_append high none []
      obtain ⟨first, rest, rfl⟩ := List.exists_cons_of_ne_nil none
      rw [List.nil_append] at whole
      rw [whole, only first List.mem_cons_self]
      rfl
  rintro ⟨bucket, rest, names, -⟩
  rw [same] at names
  exact names.named (Except.ok.inj names.host).symm

end Columnar.Store.BucketUrl
