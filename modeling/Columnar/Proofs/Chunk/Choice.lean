import Columnar.Chunk.Cascade
import Columnar.Proofs.Payload.Encoding

namespace Columnar

/-!
The payload that is chosen for values.

A payload is written when its runs and the lengths that it writes down fit a word, and values that
are counted by words have no others.  Among the payloads of the schemes that apply the shortest is
chosen, and of several equally short ones the first.
-/

namespace Payload

variable {scheme : Scheme} {values : Values} {written : Option Bytes}

/-- The runs of a payload are counted by words, and so are all lengths that it writes down. -/
structure LengthsFit (scheme : Scheme) (values : Values) : Prop where
  counts : ∀ count ∈ runCounts scheme values, count ≤ maxWord
  lengths : ∀ entry ∈ lengths scheme values, entry.2 ≤ maxWord

theorem write_eq_ok_iff :
    write scheme values = .ok written ↔
      LengthsFit scheme values ∧ written = encode scheme values := by
  unfold write
  by_cases long : (runCounts scheme values).any (maxWord < ·) = true
  · rw [if_pos long]
    obtain ⟨count, member, beyond⟩ := List.any_eq_true.mp long
    simp only [reduceCtorEq, false_iff]
    rintro ⟨fit, -⟩
    exact Nat.not_lt.mpr (fit.counts count member) (of_decide_eq_true beyond)
  rw [if_neg long]
  have counts : ∀ count ∈ runCounts scheme values, count ≤ maxWord := by simpa using long
  cases found : (lengths scheme values).find? fun entry => maxWord < entry.2 with
  | none =>
      simp only [List.find?_eq_none, decide_eq_true_eq, Nat.not_lt] at found
      simp only [Except.ok.injEq, eq_comm (b := written), iff_and_self]
      exact fun _ => ⟨counts, found⟩
  | some entry =>
      have beyond : maxWord < entry.2 := by simpa using List.find?_some found
      simp only [reduceCtorEq, false_iff]
      rintro ⟨fit, -⟩
      exact Nat.not_lt.mpr (fit.lengths entry (List.mem_of_find?_eq_some found)) beyond

/-- What a payload is refused for: the counter of a run that is longer than any word, or a
length. -/
theorem write_error {error : ChunkError} (refused : write scheme values = .error error) :
    (error = .overflow .runLength ∧ ∃ count ∈ runCounts scheme values, maxWord < count) ∨
      ∃ what length, error = .corrupt (.tooLong what length) ∧ maxWord < length := by
  unfold write at refused
  split at refused
  · rename_i long
    cases refused
    obtain ⟨count, member, beyond⟩ := List.any_eq_true.mp long
    exact .inl ⟨rfl, count, member, of_decide_eq_true beyond⟩
  split at refused
  · rename_i what length found
    cases refused
    exact .inr ⟨what, length, rfl, by simpa using List.find?_some found⟩
  · contradiction

/-- No run is longer than its list. -/
theorem runs_counts_le {α : Type} [DecidableEq α] (list : List α) :
    ∀ count ∈ (runs list).map (·.2), count ≤ list.length := by
  intro count member
  obtain ⟨run, inside, rfl⟩ := List.mem_map.mp member
  have bound := count_le_expand inside
  rwa [expand_runs] at bound

theorem runCounts_le_extent (scheme : Scheme) (values : Values) :
    ∀ count ∈ runCounts scheme values, count ≤ values.extent := by
  cases scheme with
  | runLength =>
      cases values with
      | integers list => exact runs_counts_le list
      | doubles list => exact runs_counts_le list
      | strings list => exact List.forall_mem_nil _
  | uncompressed | oneValue | dictionary => exact List.forall_mem_nil _

theorem lengthsFit_of_extent (scheme : Scheme) (short : values.extent ≤ maxWord) :
    LengthsFit scheme values := by
  refine ⟨fun count member => Nat.le_trans (runCounts_le_extent scheme values count member) short,
    fun entry member => ?_⟩
  cases scheme with
  | uncompressed =>
      cases values with
      | integers list => contradiction
      | doubles list => contradiction
      | strings list =>
          cases List.mem_singleton.mp member
          exact short
  | oneValue =>
      cases values with
      | integers list => contradiction
      | doubles list => contradiction
      | strings list =>
          obtain ⟨text, shared, rfl⟩ := List.mem_map.mp member
          have same := shared?_eq_some (Option.mem_toList.mp shared)
          cases list with
          | nil => contradiction
          | cons first rest =>
              have inside : text ∈ first :: rest := by
                rw [same]
                simp
              exact Nat.le_trans (text_le_total inside) short
  | runLength =>
      cases values with
      | integers list =>
          cases List.mem_singleton.mp member
          exact Nat.le_trans (length_runs list) short
      | doubles list =>
          cases List.mem_singleton.mp member
          exact Nat.le_trans (length_runs list) short
      | strings list => contradiction
  | dictionary =>
      cases values with
      | integers list => contradiction
      | doubles list => contradiction
      | strings list =>
          obtain ⟨added, grown, among, -⟩ := StringPool.empty.internAll_spec list
          have distinct := @StringPool.nodup_internAll .empty List.nodup_nil list
          have strings : (StringPool.empty.internAll list).1.strings.toList = added := by
            simpa [StringPool.empty] using grown
          have few : total (added.map (·.utf8ByteSize)) ≤ maxWord :=
            Nat.le_trans (total_le_of_sublist (among.map _)) short
          rcases List.mem_cons.mp member with rfl | later
          · have size := length_lt_of_nodup distinct (by rw [strings]; exact few)
            rw [Bytes.capacity_four] at size
            exact Nat.le_of_lt_succ size
          · cases List.mem_singleton.mp later
            simp only [StringPool.dataBytes, strings]
            exact few

end Payload

namespace Cascade

variable {schemes : List Scheme} {values : Values} {scheme : Scheme} {payload : Bytes}

section Shortest

/-- The payload is shorter than all in front of it and no longer than any behind it. -/
def IsShortest (payloads : List (Scheme × Bytes)) (found : Scheme × Bytes) : Prop :=
  ∃ front back, payloads = front ++ found :: back ∧
    (∀ other ∈ front, found.2.length < other.2.length) ∧
    ∀ other ∈ back, found.2.length ≤ other.2.length

theorem foldl_shorter (best : Scheme × Bytes) (payloads : List (Scheme × Bytes)) :
    ∃ found, payloads.foldl shorter (some best) = some found ∧
      IsShortest (best :: payloads) found := by
  induction payloads generalizing best with
  | nil => exact ⟨best, rfl, [], [], rfl, by simp, by simp⟩
  | cons next rest ih =>
      rw [List.foldl_cons, shorter]
      split
      · rename_i less
        obtain ⟨found, chosen, front, back, split, before, behind⟩ := ih next
        have least : found.2.length ≤ next.2.length := by
          cases front with
          | nil =>
              cases split
              exact Nat.le_refl _
          | cons first others =>
              cases split
              exact Nat.le_of_lt (before _ List.mem_cons_self)
        refine ⟨found, chosen, best :: front, back, by rw [split]; rfl, ?_, behind⟩
        exact List.forall_mem_cons.mpr ⟨Nat.lt_of_le_of_lt least less, before⟩
      · rename_i more
        rw [Nat.not_lt] at more
        obtain ⟨found, chosen, front, back, split, before, behind⟩ := ih best
        cases front with
        | nil =>
            cases split
            exact ⟨best, chosen, [], next :: rest, rfl, before,
              List.forall_mem_cons.mpr ⟨more, behind⟩⟩
        | cons first others =>
            cases split
            have less := before _ List.mem_cons_self
            refine ⟨found, chosen, best :: next :: others, back, rfl, ?_, behind⟩
            refine List.forall_mem_cons.mpr ⟨less, List.forall_mem_cons.mpr ⟨?_, ?_⟩⟩
            · exact Nat.lt_of_lt_of_le less more
            · exact fun other member => before other (List.mem_cons_of_mem _ member)

/-- The scheme applies to the values, and its payload is shorter than those of the schemes in front
of it and no longer than those of the schemes behind it. -/
structure Shortest (schemes : List Scheme) (values : Values) (scheme : Scheme) (payload : Bytes) :
    Prop where
  written : Payload.encode scheme values = some payload
  first : ∃ front back, schemes = front ++ scheme :: back ∧
    (∀ other ∈ front, ∀ bytes, Payload.encode other values = some bytes →
      payload.length < bytes.length) ∧
    ∀ other ∈ back, ∀ bytes, Payload.encode other values = some bytes →
      payload.length ≤ bytes.length

theorem Shortest.mem (shortest : Shortest schemes values scheme payload) : scheme ∈ schemes := by
  obtain ⟨front, back, rfl, -, -⟩ := shortest.first
  exact List.mem_append_right front List.mem_cons_self

theorem Shortest.le (shortest : Shortest schemes values scheme payload) {other : Scheme}
    {bytes : Bytes} (among : other ∈ schemes) (encoded : Payload.encode other values = some bytes) :
    payload.length ≤ bytes.length := by
  obtain ⟨front, back, rfl, before, behind⟩ := shortest.first
  rcases List.mem_append.mp among with inFront | later
  · exact Nat.le_of_lt (before other inFront bytes encoded)
  rcases List.mem_cons.mp later with rfl | inBack
  · rw [shortest.written] at encoded
    cases encoded
    exact Nat.le_refl _
  · exact behind other inBack bytes encoded

end Shortest

section Choice

/-- The payloads of the schemes that apply, in order. -/
def applying (values : Values) (schemes : List Scheme) : List (Scheme × Bytes) :=
  schemes.filterMap fun scheme => (Payload.encode scheme values).map (scheme, ·)

theorem payloads_eq_ok_iff {found : List (Scheme × Bytes)} :
    payloads values schemes = .ok found ↔
      (∀ scheme ∈ schemes, Payload.LengthsFit scheme values) ∧ found = applying values schemes := by
  induction schemes generalizing found with
  | nil => simp [payloads, applying, eq_comm]
  | cons scheme rest ih =>
      rw [payloads]
      cases written : Payload.write scheme values with
      | error cause =>
          simp only [reduceCtorEq, false_iff]
          rintro ⟨fit, -⟩
          have done := Payload.write_eq_ok_iff.mpr ⟨fit scheme List.mem_cons_self, rfl⟩
          rw [written] at done
          contradiction
      | ok payload =>
          obtain ⟨fit, rfl⟩ := Payload.write_eq_ok_iff.mp written
          cases later : payloads values rest with
          | error cause =>
              simp only [reduceCtorEq, false_iff]
              rintro ⟨all, -⟩
              have done := ih.mpr ⟨fun other member => all other (List.mem_cons_of_mem _ member), rfl⟩
              rw [later] at done
              contradiction
          | ok others =>
              obtain ⟨all, rfl⟩ := ih.mp later
              have joined : applying values (scheme :: rest) =
                  (Payload.encode scheme values).toList.map (scheme, ·) ++ applying values rest := by
                rw [applying, List.filterMap_cons]
                cases Payload.encode scheme values <;> rfl
              simp only [Except.ok.injEq, List.forall_mem_cons, ← joined, eq_comm (b := found),
                iff_and_self]
              exact fun _ => ⟨fit, all⟩

theorem shortest_of_isShortest (found : IsShortest (applying values schemes) (scheme, payload)) :
    Shortest schemes values scheme payload := by
  obtain ⟨front, back, split, before, behind⟩ := found
  obtain ⟨left, right, rfl, inFront, rest⟩ := List.filterMap_eq_append_iff.mp split
  obtain ⟨skipped, chosen, others, rfl, none, here, inBack⟩ := List.filterMap_eq_cons_iff.mp rest
  obtain ⟨bytes, encoded, same⟩ := Option.map_eq_some_iff.mp here
  cases same
  have entry {list : List Scheme} {other : Scheme} {bytes : Bytes} (member : other ∈ list)
      (encoded : Payload.encode other values = some bytes) :
      (other, bytes) ∈ list.filterMap fun scheme =>
        (Payload.encode scheme values).map (scheme, ·) :=
    List.mem_filterMap.mpr ⟨other, member, by rw [encoded]; rfl⟩
  refine ⟨encoded, left ++ skipped, others, by rw [List.append_assoc], ?_, ?_⟩
  · intro other member bytes encoded
    rcases List.mem_append.mp member with inside | without
    · exact before _ (inFront ▸ entry inside encoded)
    · have absent := none other without
      rw [encoded] at absent
      contradiction
  · intro other member bytes encoded
    exact behind _ (inBack ▸ entry member encoded)

theorem choose_some (chosen : choose schemes values = .ok (some (scheme, payload))) :
    (∀ scheme ∈ schemes, Payload.LengthsFit scheme values) ∧
      Shortest schemes values scheme payload := by
  unfold choose at chosen
  cases written : payloads values schemes with
  | error cause =>
      rw [written] at chosen
      contradiction
  | ok found =>
      obtain ⟨fit, same⟩ := payloads_eq_ok_iff.mp written
      rw [written] at chosen
      cases found with
      | nil => cases chosen
      | cons best rest =>
          replace chosen : rest.foldl shorter (some best) = some (scheme, payload) :=
            Except.ok.inj chosen
          obtain ⟨least, kept, shortest⟩ := foldl_shorter best rest
          rw [kept] at chosen
          cases chosen
          rw [same] at shortest
          exact ⟨fit, shortest_of_isShortest shortest⟩

/-- Where a scheme applies and all lengths fit, something is chosen. -/
theorem exists_choose (fit : ∀ scheme ∈ schemes, Payload.LengthsFit scheme values)
    (among : scheme ∈ schemes) (encoded : Payload.encode scheme values = some payload) :
    ∃ scheme payload, choose schemes values = .ok (some (scheme, payload)) := by
  have written := payloads_eq_ok_iff.mpr ⟨fit, rfl⟩
  have member : (scheme, payload) ∈ applying values schemes :=
    List.mem_filterMap.mpr ⟨scheme, among, by rw [encoded]; rfl⟩
  unfold choose
  rw [written]
  cases held : applying values schemes with
  | nil =>
      rw [held] at member
      contradiction
  | cons best rest =>
      obtain ⟨found, kept, -⟩ := foldl_shorter best rest
      exact ⟨found.1, found.2, congrArg Except.ok kept⟩

theorem uncompressed_mem_schemesAt (depth : Nat) (values : Values) :
    .uncompressed ∈ schemesAt depth values.type := by
  unfold schemesAt
  split
  · simp
  · cases values <;> simp [Values.type, Scheme.candidates]

end Choice

end Cascade

end Columnar
