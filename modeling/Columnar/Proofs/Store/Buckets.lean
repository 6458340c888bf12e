import Columnar.Proofs.Store.BucketPaths
import Mathlib.Data.List.TakeWhile

namespace Columnar.Store.BucketUrl

/-!
Buckets and locations that URLs name.

A URL's authority names the bucket and ends at a slash or a mark.  What follows it, behind a port,
is the path up to the first mark.
-/

def authority (chars : List Char) : List Char := chars.takeWhile fun char => !endsAuthority char

def afterAuthority (chars : List Char) : List Char :=
  chars.dropWhile fun char => !endsAuthority char

theorem authority_append_after (chars : List Char) :
    authority chars ++ afterAuthority chars = chars :=
  List.takeWhile_append_dropWhile

/-- The host of an authority, and its port with the colon in front. -/
def hostAndPort (authority : List Char) : List Char × List Char :=
  splitHost false (splitUser authority).2

/-- An authority that names a bucket, and what is left of it behind its port. -/
structure Names (authority : List Char) (bucket : String) (rest : List Char) : Prop where
  host : readHost (hostAndPort authority).1 = .ok bucket
  port : skipPort 0 (hostAndPort authority).2.tail = .ok rest
  named : bucket ≠ ""

/-- The path in front of the first mark. -/
def pathText (chars : List Char) : List Char :=
  chars.takeWhile fun char => char ≠ '?' ∧ char ≠ '#'

def queryText (chars : List Char) : List Char :=
  match chars.dropWhile fun char => char ≠ '?' ∧ char ≠ '#' with
  | '?' :: query => query.takeWhile (· ≠ '#')
  | _ => []

/-- The URL of a bucket behind whose authority something stands. -/
def inBucket (bucket : String) (chars : List Char) : BucketUrl :=
  ⟨bucket, readPath (pathText chars), queryText chars⟩

/-- The place that such a URL names. -/
def place (bucket : String) (chars : List Char) : Place :=
  ⟨.bucket bucket (inBucket bucket chars).isAnonymous, .ofPath (inBucket bucket chars).key⟩

/-- A URL is read as its authority names a bucket. -/
theorem read_iff {text : List Char} {url : BucketUrl} :
    read text = .ok url ∧ url.host ≠ "" ↔
      ∃ rest, Names (authority (significant text)) url.host rest ∧
        url = inBucket url.host (rest ++ afterAuthority (significant text)) := by
  constructor
  · rintro ⟨whole, named⟩
    simp only [read, bind, Except.bind, pure, Except.pure, throw, throwThe,
      MonadExceptOf.throw] at whole
    split at whole
    · contradiction
    split at whole
    · contradiction
    rename_i bucket host
    split at whole
    · contradiction
    split at whole
    · contradiction
    rename_i rest port
    split at whole
    · contradiction
    cases whole
    exact ⟨rest, ⟨host, port, named⟩, rfl⟩
  · rintro ⟨rest, names, same⟩
    refine ⟨?_, names.named⟩
    have hosted : (splitUser (authority (significant text))).2 ≠ [] := by
      intro none
      have unnamed := names.host
      rw [hostAndPort, none] at unnamed
      exact names.named (Except.ok.inj unnamed).symm
    have host := names.host
    have port := names.port
    simp only [hostAndPort, authority] at host port hosted
    simp only [read, bind, Except.bind, pure, Except.pure, throw, throwThe, MonadExceptOf.throw,
      host, port, hosted, names.named, false_and, and_false, if_false]
    rw [same]
    rfl

theorem ofPath_bucket_iff {directory path : String} {text : List Char} {found : Place}
    (behind : Place.afterScheme? Place.bucketScheme path = some text) :
    Place.ofPath directory path = .ok found ↔
      ∃ bucket rest, Names (authority (significant text)) bucket rest ∧
        found = place bucket (rest ++ afterAuthority (significant text)) := by
  simp only [Place.ofPath, behind]
  constructor
  · intro resolved
    cases whole : read text with
    | error fault =>
        rw [whole] at resolved
        contradiction
    | ok url =>
        simp only [whole] at resolved
        split at resolved
        · contradiction
        · rename_i named
          obtain ⟨rest, names, same⟩ := read_iff.mp ⟨whole, named⟩
          refine ⟨url.host, rest, names, ?_⟩
          rw [← Except.ok.inj resolved, place, ← same]
  · rintro ⟨bucket, rest, names, rfl⟩
    obtain ⟨whole, named⟩ :=
      (@read_iff text (inBucket bucket (rest ++ afterAuthority (significant text)))).mpr
        ⟨rest, names, rfl⟩
    simp only [whole]
    rw [if_neg named]
    rfl

section Appending

variable {front back chars : List Char} {bucket : String}

/-- What is written behind the place where a test first fails does not move it. -/
theorem span_append {test : Char → Bool} {front back : List Char}
    (stops : front.dropWhile test ≠ [] ∨ back.takeWhile test = []) :
    (front ++ back).takeWhile test = front.takeWhile test ∧
      (front ++ back).dropWhile test = front.dropWhile test ++ back := by
  induction front with
  | nil =>
      have stop : back.takeWhile test = [] := stops.resolve_left (absurd rfl)
      have whole := List.takeWhile_append_dropWhile (p := test) (l := back)
      rw [stop, List.nil_append] at whole
      exact ⟨stop, whole⟩
  | cons char rest ih =>
      by_cases passes : test char = true
      · rw [List.dropWhile_cons_of_pos passes] at stops
        obtain ⟨taken, dropped⟩ := ih stops
        simp only [List.cons_append, List.takeWhile_cons_of_pos passes,
          List.dropWhile_cons_of_pos passes, taken, dropped, true_and]
      · simp only [List.cons_append, List.takeWhile_cons_of_neg passes,
          List.dropWhile_cons_of_neg passes, true_and]

theorem authority_append (ends : afterAuthority front ≠ [] ∨ authority back = []) :
    authority (front ++ back) = authority front ∧
      afterAuthority (front ++ back) = afterAuthority front ++ back :=
  span_append ends

theorem authority_slash (back : List Char) : authority ('/' :: back) = [] := rfl

/-- Whether a path ends inside a text. -/
def Marked (chars : List Char) : Prop := ∃ char ∈ chars, char = '?' ∨ char = '#'

instance (chars : List Char) : Decidable (Marked chars) :=
  decidable_of_iff _ (List.any_iff_exists_prop)

theorem pathText_append (marked : Marked front) : pathText (front ++ back) = pathText front := by
  refine (span_append (.inl ?_)).1
  obtain ⟨char, member, mark⟩ := marked
  rw [ne_eq, List.dropWhile_eq_nil_iff]
  intro all
  have neither := of_decide_eq_true (all char member)
  exact mark.elim neither.1 neither.2

theorem pathText_unmarked (unmarked : ¬ Marked chars) : pathText chars = chars := by
  refine List.takeWhile_eq_self_iff.mpr fun char member => decide_eq_true ⟨?_, ?_⟩
  · exact fun mark => unmarked ⟨char, member, .inl mark⟩
  · exact fun mark => unmarked ⟨char, member, .inr mark⟩

theorem queryText_unmarked (unmarked : ¬ Marked chars) : queryText chars = [] := by
  have none : (chars.dropWhile fun char => char ≠ '?' ∧ char ≠ '#') = [] := by
    refine List.dropWhile_eq_nil_iff.mpr fun char member => decide_eq_true ⟨?_, ?_⟩
    · exact fun mark => unmarked ⟨char, member, .inl mark⟩
    · exact fun mark => unmarked ⟨char, member, .inr mark⟩
  rw [queryText, none]

theorem marked_append : Marked (front ++ back) ↔ Marked front ∨ Marked back := by
  simp only [Marked, List.mem_append, or_and_right, exists_or]

theorem Marked.mono (marked : Marked front) (within : front ⊆ back) : Marked back := by
  obtain ⟨char, member, mark⟩ := marked
  exact ⟨char, within member, mark⟩

theorem not_marked_slashes (only : ∀ char ∈ chars, char = '/') : ¬ Marked chars := by
  rintro ⟨char, member, mark⟩
  rw [only char member] at mark
  exact absurd mark (by decide)

theorem Blanks.not_marked (some : Blanks chars) : ¬ Marked chars := by
  rintro ⟨char, member, mark⟩
  have low := (some.2 char member).1
  rcases mark with rfl | rfl
  · exact absurd low (by decide)
  · exact absurd low (by decide)

theorem authority_unmarked (chars : List Char) : ¬ Marked (authority chars) := by
  rintro ⟨char, member, mark⟩
  have inside : (!endsAuthority char) = true :=
    List.mem_takeWhile_imp (p := fun char => !endsAuthority char) member
  rcases mark with rfl | rfl
  · exact absurd inside (by decide)
  · exact absurd inside (by decide)

theorem slash_name_subset (file : StoredFile) :
    '/' :: file.name.toList ⊆ '/' :: StoredFile.alphabet :=
  List.cons_subset_cons _ fun _ => StoredFile.mem_alphabet

theorem not_marked_name (file : StoredFile) : ¬ Marked ('/' :: file.name.toList) := by
  have free : ¬ Marked ('/' :: StoredFile.alphabet) := by decide
  exact fun marked => free (marked.mono (slash_name_subset file))

theorem location_place (bucket : String) (chars : List Char) :
    (place bucket chars).location =
      ⟨(visible (pathText chars)).map Location.encodeSegment⟩ :=
  ofPath_key

/-- Behind a mark nothing is added to a path. -/
theorem location_marked (marked : Marked front) (bucket : String) (back : List Char) :
    (place bucket (front ++ back)).location = (place bucket front).location := by
  rw [location_place, location_place, pathText_append marked]

/-- Without a mark a file's name behind a slash names that file in the directory. -/
theorem place_name (unmarked : ¬ Marked chars) {slashes : List Char}
    (only : ∀ char ∈ slashes, char = '/') (bucket : String) (file : StoredFile) :
    place bucket (chars ++ '/' :: file.name.toList) =
      (place bucket (chars ++ slashes)).child file.name := by
  have closed : ¬ Marked (chars ++ slashes) := fun marked =>
    (marked_append.mp marked).elim unmarked (not_marked_slashes only)
  have open' : ¬ Marked (chars ++ '/' :: file.name.toList) := fun marked =>
    (marked_append.mp marked).elim unmarked (not_marked_name file)
  have store : (place bucket (chars ++ '/' :: file.name.toList)).store =
      (place bucket (chars ++ slashes)).store := by
    simp only [place, inBucket, isAnonymous, queryText_unmarked open', queryText_unmarked closed]
  have location : (place bucket (chars ++ '/' :: file.name.toList)).location =
      (place bucket (chars ++ slashes)).location.child file.name := by
    rw [location_place, location_place, pathText_unmarked open', pathText_unmarked closed,
      visible_name, visible_slashes chars only, List.map_append]
    rfl
  exact Place.mk.injEq .. |>.mpr ⟨store, location⟩

/-- With blanks in front of the slash it names a file in another directory. -/
theorem place_blanks (unmarked : ¬ Marked chars) (path : chars ≠ []) {blanks : List Char}
    (some : Blanks blanks) (bucket : String) (file : StoredFile) :
    (place bucket (chars ++ blanks ++ '/' :: file.name.toList)).location ≠
      (place bucket chars).location.child file.name := by
  have open' : ¬ Marked (chars ++ blanks ++ '/' :: file.name.toList) := by
    rw [marked_append, marked_append]
    rintro ((marked | marked) | marked)
    · exact unmarked marked
    · exact some.not_marked marked
    · exact not_marked_name file marked
  rw [location_place, location_place, pathText_unmarked open', pathText_unmarked unmarked,
    visible_name, List.map_append, Location.child, ne_eq, Location.mk.injEq]
  intro same
  exact visible_blanks_ne path some (List.append_inj_left' same rfl)

end Appending

section Authorities

variable {front back rest : List Char} {inBrackets : Bool} {value : Nat}

theorem splitUser_host (authority : List Char) :
    (splitUser authority).2 = (authority.reverse.takeWhile (· ≠ '@')).reverse := by
  unfold splitUser
  split <;> rfl

theorem splitUser_append (clean : '@' ∉ back) :
    (splitUser (front ++ back)).2 = (splitUser front).2 ++ back := by
  have passes : ∀ char ∈ back.reverse, decide (char ≠ '@') = true := by
    intro char member
    refine decide_eq_true ?_
    rintro rfl
    exact clean (List.mem_reverse.mp member)
  rw [splitUser_host, splitUser_host, List.reverse_append,
    List.takeWhile_append_of_pos passes, List.reverse_append, List.reverse_reverse]

theorem splitUser_suffix (authority : List Char) : (splitUser authority).2 <:+ authority := by
  rw [splitUser_host, ← List.reverse_prefix, List.reverse_reverse]
  exact List.takeWhile_prefix _

/-- Whether the characters behind one are in brackets. -/
def stillBracketed (inBrackets : Bool) (char : Char) : Bool :=
  if char = '[' then true else if char = ']' then false else inBrackets

theorem splitHost_cons {char : Char} (inside : ¬ (char = ':' ∧ ¬ inBrackets)) (rest : List Char) :
    splitHost inBrackets (char :: rest) =
      (char :: (splitHost (stillBracketed inBrackets char) rest).1,
        (splitHost (stillBracketed inBrackets char) rest).2) := by
  rw [splitHost, if_neg inside]
  rfl

theorem splitHost_colon {char : Char} (ends : char = ':' ∧ ¬ inBrackets) (rest : List Char) :
    splitHost inBrackets (char :: rest) = ([], char :: rest) := by
  rw [splitHost, if_pos ends]

theorem splitHost_append_port (port : (splitHost inBrackets front).2 ≠ []) :
    splitHost inBrackets (front ++ back) =
      ((splitHost inBrackets front).1, (splitHost inBrackets front).2 ++ back) := by
  induction front generalizing inBrackets with
  | nil => exact absurd rfl port
  | cons char rest ih =>
      by_cases ends : char = ':' ∧ ¬ inBrackets
      · rw [List.cons_append, splitHost_colon ends, splitHost_colon ends, List.cons_append]
      · rw [splitHost_cons ends] at port
        rw [List.cons_append, splitHost_cons ends, splitHost_cons ends, ih port]

theorem splitHost_append_host (none : (splitHost inBrackets front).2 = []) (clean : ':' ∉ back) :
    splitHost inBrackets (front ++ back) = ((splitHost inBrackets front).1 ++ back, []) := by
  induction front generalizing inBrackets with
  | nil =>
      rw [List.nil_append]
      induction back generalizing inBrackets with
      | nil => rfl
      | cons char rest inner =>
          rw [List.mem_cons, not_or] at clean
          have inside : ¬ (char = ':' ∧ ¬ inBrackets) := fun ends => clean.1 ends.1.symm
          rw [splitHost_cons inside, inner clean.2 rfl]
          rfl
  | cons char rest ih =>
      by_cases ends : char = ':' ∧ ¬ inBrackets
      · rw [splitHost_colon ends] at none
        contradiction
      · rw [splitHost_cons ends] at none
        rw [List.cons_append, splitHost_cons ends, splitHost_cons ends, ih none, List.cons_append]

theorem splitHost_suffix (inBrackets : Bool) (chars : List Char) :
    (splitHost inBrackets chars).2 <:+ chars := by
  induction chars generalizing inBrackets with
  | nil => exact List.suffix_rfl
  | cons char rest ih =>
      by_cases ends : char = ':' ∧ ¬ inBrackets
      · exact ⟨[], congrArg Prod.snd (splitHost_colon ends rest)⟩
      · rw [splitHost_cons ends]
        exact (ih _).trans (List.suffix_cons ..)

/-- A port goes on behind a digit and ends in front of a backslash. -/
theorem skipPort_cons {char : Char} {others : List Char}
    (read : skipPort value (char :: others) = .ok rest) :
    (∃ next, skipPort next others = .ok rest ∧
        ∀ chars, skipPort value (char :: chars) = skipPort next chars) ∨
      rest = char :: others ∧ ∀ chars, skipPort value (char :: chars) = .ok (char :: chars) := by
  simp only [skipPort] at read ⊢
  by_cases number : char.isDigit = true
  · simp only [if_pos number] at read ⊢
    by_cases large : 65535 < 10 * value + (char.toNat - '0'.toNat)
    · rw [if_pos large] at read
      contradiction
    · rw [if_neg large] at read
      exact .inl ⟨_, read, fun chars => if_neg large⟩
  · simp only [if_neg number] at read ⊢
    by_cases ends : char = '\\'
    · rw [if_pos ends] at read
      exact .inr ⟨(Except.ok.inj read).symm, fun chars => if_pos ends⟩
    · rw [if_neg ends] at read
      contradiction

/-- Behind a port nothing but a backslash can go on. -/
theorem skipPort_append {first : Char} (read : skipPort value front = .ok rest)
    (digit : first.isDigit = false) (slash : first ≠ '\\') :
    (rest ≠ [] ∧ skipPort value (front ++ first :: back) = .ok (rest ++ first :: back)) ∨
      skipPort value (front ++ first :: back) = .error .invalidPort := by
  induction front generalizing value with
  | nil =>
      right
      rw [List.nil_append, skipPort, digit, if_neg Bool.false_ne_true, if_neg slash]
  | cons char others ih =>
      rw [List.cons_append]
      rcases skipPort_cons read with ⟨next, later, goes⟩ | ⟨rfl, ends⟩
      · rw [goes]
        exact ih later
      · exact .inl ⟨List.cons_ne_nil char others, ends _⟩

theorem skipPort_suffix (read : skipPort value front = .ok rest) : rest <:+ front := by
  induction front generalizing value with
  | nil =>
      cases read
      exact List.suffix_rfl
  | cons char others ih =>
      rcases skipPort_cons read with ⟨next, later, -⟩ | ⟨rfl, -⟩
      · exact (ih later).trans (List.suffix_cons ..)
      · exact List.suffix_rfl

/-- Without a bracket in front a host is taken as it is, with escapes. -/
theorem readHost_open {host : List Char} (opened : host.head? ≠ some '[') :
    readHost host = if host.any fun char => forbiddenInHost.contains char then
      .error .invalidDomain else .ok (String.ofList (percentEncode [] host)) := by
  unfold readHost
  split
  · simp at opened
  · rfl

/-- Blanks behind a host make it another one, if it can be a host at all. -/
theorem readHost_blanks_ne {host blanks : List Char} {bucket : String}
    (read : readHost host = .ok bucket) (named : bucket ≠ "") (some : Blanks blanks) :
    readHost (host ++ blanks) ≠ .ok bucket := by
  intro same
  cases host with
  | nil => exact named (Except.ok.inj read).symm
  | cons first rest =>
      by_cases bracket : first = '['
      · subst bracket
        obtain ⟨before, last, rfl⟩ := (List.eq_nil_or_concat blanks).resolve_left some.1
        have low := (some.2 last (by simp)).1
        have ends : (rest ++ before.concat last).getLast? ≠ Option.some ']' := by
          simp only [List.concat_eq_append, List.getLast?_append, List.getLast?_singleton,
            Option.some_or, ne_eq, Option.some.injEq]
          rintro rfl
          exact absurd low (by decide)
        rw [List.cons_append, readHost, if_neg ends] at same
        contradiction
      · have neither : (first :: rest).head? ≠ Option.some '[' := by simpa using bracket
        rw [readHost_open neither] at read
        rw [readHost_open (by simpa using bracket)] at same
        split at read
        · contradiction
        split at same
        · contradiction
        have chars := (Except.ok.inj same).trans (Except.ok.inj read).symm
        rw [String.ofList_inj, percentEncode_append, List.append_right_eq_self] at chars
        have longer := length_le_percentEncode [] blanks
        rw [chars, List.length_nil] at longer
        exact some.1 (List.length_eq_zero_iff.mp (by omega))

theorem Names.unmarked {chars : List Char} {bucket : String}
    (names : Names (authority chars) bucket rest) : ¬ Marked rest := by
  have within : rest <:+ authority chars :=
    (skipPort_suffix names.port).trans ((List.tail_suffix _).trans
      ((splitHost_suffix false _).trans (splitUser_suffix _)))
  exact fun marked => authority_unmarked chars (marked.mono within.subset)

/-- Blanks behind an authority name another bucket, unless they stand behind its port. -/
theorem Names.blanks {bucket : String} {blanks after : List Char} (names : Names front bucket rest)
    (some : Blanks blanks) (other : Names (front ++ blanks) bucket after) :
    rest ≠ [] ∧ after = rest ++ blanks := by
  have clean (mark : Char) (high : 0x20 < mark.toNat) : mark ∉ blanks := by
    intro member
    have low := (some.2 mark member).1
    omega
  have split : hostAndPort (front ++ blanks) =
      splitHost false ((splitUser front).2 ++ blanks) := by
    rw [hostAndPort, splitUser_append (clean '@' (by decide))]
  by_cases none : (hostAndPort front).2 = []
  · have host := other.host
    rw [split, splitHost_append_host none (clean ':' (by decide))] at host
    exact absurd host (readHost_blanks_ne names.host names.named some)
  · have behind :
        (hostAndPort (front ++ blanks)).2.tail = (hostAndPort front).2.tail ++ blanks := by
      rw [split, splitHost_append_port none, ← List.tail_append_of_ne_nil none]
      rfl
    have port := other.port
    rw [behind] at port
    obtain ⟨first, more, rfl⟩ := List.exists_cons_of_ne_nil some.1
    have low := (some.2 first List.mem_cons_self).1
    have digit : first.isDigit = false := by
      simp only [Char.isDigit, UInt32.le_iff_toNat_le]
      have value : first.val.toNat = first.toNat := rfl
      simp
      omega
    have slash : first ≠ '\\' := by
      rintro rfl
      exact absurd low (by decide)
    rcases skipPort_append names.port digit slash with ⟨goes, read⟩ | refused
    · exact ⟨goes, Except.ok.inj (port.symm.trans read)⟩
    · exact absurd (port.symm.trans refused) (by simp)

end Authorities

end Columnar.Store.BucketUrl
