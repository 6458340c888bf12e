import Columnar.Proofs.Payload.Canonical
import Mathlib.Data.List.Chain

namespace Columnar

/-!
Runs and dictionaries are written as short as they can be.

Other payloads may split a run or hold one of no rows, and may hold dictionary entries twice or
unused.  A list of runs that stands for the same rows has at least one run for each maximal one, and
a dictionary for the same texts has at least each distinct text among its entries.
-/

namespace Payload

section Runs

variable {α β : Type} [DecidableEq α] [DecidableEq β]

theorem runs_cons (value : α) (list : List α) :
    runs (value :: list) = prependRun value (runs list) := rfl

/-- The first run is of the first entry. -/
theorem head_runs (value : α) (list : List α) :
    ∃ count rest, runs (value :: list) = (value, count + 1) :: rest := by
  rw [runs_cons]
  cases runs list with
  | nil => exact ⟨0, [], rfl⟩
  | cons run others =>
      rw [prependRun]
      split
      · rename_i same
        exact ⟨run.2, others, by rw [same]⟩
      · exact ⟨0, run :: others, rfl⟩

theorem runs_positive {list : List α} {run : α × Nat} (member : run ∈ runs list) : 1 ≤ run.2 := by
  induction list generalizing run with
  | nil => contradiction
  | cons value rest ih =>
      rw [runs_cons] at member
      cases held : runs rest with
      | nil =>
          rw [held, prependRun, List.mem_singleton] at member
          rw [member]
      | cons first others =>
          have later : run ∈ others → 1 ≤ run.2 := fun inside => ih (by simp [held, inside])
          rw [held, prependRun] at member
          split at member
          · rcases List.mem_cons.mp member with rfl | inside
            · exact Nat.le_add_left 1 _
            · exact later inside
          · rcases List.mem_cons.mp member with rfl | inside
            · exact Nat.le_refl 1
            · exact ih (by rwa [held])

theorem isChain_runs (list : List α) :
    (runs list).IsChain fun first second => first.1 ≠ second.1 := by
  induction list with
  | nil => exact .nil
  | cons value rest ih =>
      rw [runs_cons]
      cases held : runs rest with
      | nil => exact .singleton _
      | cons first others =>
          rw [held] at ih
          rw [prependRun]
          split
          · exact List.isChain_cons.mpr (List.isChain_cons.mp ih)
          · rename_i differs
            exact List.isChain_cons_cons.mpr ⟨differs, ih⟩

theorem runs_map {image : α → β} (distinct : Function.Injective image) (list : List α) :
    runs (list.map image) = (runs list).map fun run => (image run.1, run.2) := by
  induction list with
  | nil => rfl
  | cons value rest ih =>
      rw [List.map_cons, runs_cons, runs_cons, ih]
      cases runs rest with
      | nil => rfl
      | cons first others =>
          simp only [List.map_cons, prependRun, distinct.eq_iff]
          split <;> rfl

/-- A run in front of a list costs at most one run more. -/
theorem length_runs_replicate_append (count : Nat) (value : α) (list : List α) :
    (runs (List.replicate count value ++ list)).length ≤ (runs list).length + 1 := by
  induction count with
  | zero => exact Nat.le_succ _
  | succ count ih =>
      cases count with
      | zero => exact length_prependRun_le value (runs list)
      | succ count =>
          obtain ⟨held, others, first⟩ := head_runs value (List.replicate count value ++ list)
          rw [List.replicate_succ, List.cons_append, first, List.length_cons] at ih
          rw [List.replicate_succ, List.replicate_succ, List.cons_append, List.cons_append,
            runs_cons, first, prependRun, if_pos rfl, List.length_cons]
          exact ih

/-- No runs that stand for a list are fewer than its maximal ones. -/
theorem length_runs_expand (others : List (α × Nat)) :
    (runs (expand others)).length ≤ others.length := by
  induction others with
  | nil => exact Nat.le_refl 0
  | cons run rest ih =>
      have step := length_runs_replicate_append run.2 run.1 (expand rest)
      rw [List.length_cons]
      exact Nat.le_trans step (Nat.succ_le_succ ih)

end Runs

end Payload

namespace StringPool

/-- The distinct texts of a list, in the order in which they are first seen. -/
structure FirstSeen (texts entries : List String) : Prop where
  distinct : entries.Nodup
  mem_iff : ∀ text, text ∈ entries ↔ text ∈ texts
  ordered : entries.Pairwise fun first second => texts.idxOf first < texts.idxOf second

variable {seen : List String} {pool : StringPool}

/-- A text that has been seen is passed over, and a new one is behind all others. -/
theorem FirstSeen.intern (first : FirstSeen seen pool.strings.toList) (text : String) :
    FirstSeen (seen ++ [text]) (pool.intern text).1.strings.toList := by
  have distinct := nodup_intern first.distinct text
  obtain ⟨-, members, ordered⟩ := first
  have earlier : pool.strings.toList.Pairwise fun one other =>
      (seen ++ [text]).idxOf one < (seen ++ [text]).idxOf other := by
    refine ordered.imp_of_mem fun one other before => ?_
    rwa [List.idxOf_append_of_mem ((members _).mp one),
      List.idxOf_append_of_mem ((members _).mp other)]
  rcases pool.intern_cases text with ⟨code, here, same⟩ | ⟨fresh, pushed, -⟩
  · rw [same] at distinct ⊢
    refine ⟨distinct, fun other => ?_, earlier⟩
    rw [List.mem_append, List.mem_singleton, members]
    constructor
    · exact Or.inl
    · rintro (inside | rfl)
      · exact inside
      · exact (members other).mp (List.mem_of_getElem? here)
  · have unseen : text ∉ seen := fun inside => fresh ((members text).mpr inside)
    rw [pushed] at distinct ⊢
    refine ⟨distinct, fun other => ?_, ?_⟩
    · rw [List.mem_append, List.mem_append, members]
    · refine List.pairwise_append.mpr ⟨earlier, List.pairwise_singleton _ _, ?_⟩
      intro one member new here
      rw [List.mem_singleton] at here
      have before := (members one).mp member
      rw [here, List.idxOf_append_of_mem before, List.idxOf_append_of_notMem unseen]
      exact Nat.lt_of_lt_of_le (List.idxOf_lt_length_of_mem before) (Nat.le_add_right _ _)

theorem FirstSeen.internAll (first : FirstSeen seen pool.strings.toList) (texts : List String) :
    FirstSeen (seen ++ texts) (pool.internAll texts).1.strings.toList := by
  induction texts generalizing seen pool with
  | nil => rwa [List.append_nil]
  | cons text rest ih =>
      have later := ih (first.intern text)
      rwa [List.append_assoc, List.singleton_append] at later

theorem firstSeen_internAll (texts : List String) :
    FirstSeen texts (empty.internAll texts).1.strings.toList := by
  have start : FirstSeen [] empty.strings.toList := ⟨List.nodup_nil, by simp [empty], .nil⟩
  exact start.internAll texts

/-- Each text is given its place among the distinct ones. -/
theorem codes_internAll (texts : List String) :
    (empty.internAll texts).2 =
      texts.map (empty.internAll texts).1.strings.toList.idxOf := by
  obtain ⟨-, -, -, codes⟩ := empty.internAll_spec texts
  have distinct := (firstSeen_internAll texts).distinct
  generalize (empty.internAll texts).1.strings.toList = entries at codes distinct ⊢
  generalize (empty.internAll texts).2 = numbers at codes ⊢
  induction numbers generalizing texts with
  | nil =>
      rw [List.map_nil, eq_comm, List.map_eq_nil_iff] at codes
      rw [codes, List.map_nil]
  | cons code rest ih =>
      cases texts with
      | nil => simp at codes
      | cons text others =>
          rw [List.map_cons, List.map_cons, List.cons.injEq] at codes
          obtain ⟨inside, rfl⟩ := List.getElem?_eq_some_iff.mp codes.1
          rw [List.map_cons, distinct.idxOf_getElem, ih others codes.2]

end StringPool

namespace Payload

section Numbers

variable {α : Type} [DecidableEq α] {slot : α → Bytes} {list : List α} {type : ColumnType}
  {width : Nat}

/-- Runs that stand for rows, none of them for no row and no two neighbours with one slot. -/
structure MaximalRuns (rows : List Bytes) (runs : List Run) : Prop where
  rows : runs.flatMap Run.rows = rows
  positive : ∀ run ∈ runs, 1 ≤ run.count
  unlike : runs.IsChain fun first second => first.slot ≠ second.slot

theorem maximalRuns_writtenRuns (distinct : Function.Injective slot) (list : List α) :
    MaximalRuns (list.map slot) (writtenRuns slot list) := by
  refine ⟨rows_writtenRuns slot list, ?_, ?_⟩
  · intro run member
    obtain ⟨source, inside, rfl⟩ := List.mem_map.mp member
    exact runs_positive inside
  · rw [writtenRuns, List.isChain_map]
    exact (isChain_runs list).imp fun first second differs same => differs (distinct same)

theorem length_writtenRuns_le (distinct : Function.Injective slot) {others : List Run}
    (stands : others.flatMap Run.rows = list.map slot) :
    (writtenRuns slot list).length ≤ others.length := by
  have expanded : expand (others.map fun run => (run.slot, run.count)) = list.map slot := by
    rw [expand, List.flatMap_map]
    exact stands
  have fewest := length_runs_expand (others.map fun run => (run.slot, run.count))
  rw [expanded, runs_map distinct, List.length_map, List.length_map] at fewest
  rwa [writtenRuns, List.length_map]

theorem length_written_runs {runs : List Run} (widths : ∀ run ∈ runs, run.slot.length = width) :
    (Bytes.ofNat 4 runs.length ++ runs.flatMap Run.written).length =
      4 + runs.length * (width + 4) := by
  rw [List.length_append, Bytes.length_ofNat, length_written widths]

theorem encodeRuns_shortest (numeric : slotWidth? type = some width)
    (widths : ∀ value, (slot value).length = width) (distinct : Function.Injective slot)
    {other : Bytes} (spelled : Spells .runLength type (list.map slot) other) :
    (encodeRuns slot list).length ≤ other.length := by
  have slots : ∀ run ∈ writtenRuns slot list, run.slot.length = width := by
    intro run member
    obtain ⟨source, -, rfl⟩ := List.mem_map.mp member
    exact widths source.1
  generalize spells : list.map slot = rows at spelled
  cases spelled with
  | @runs _ otherWidth others same otherWidths counts few =>
      cases numeric.symm.trans same
      have fewest := length_writtenRuns_le distinct spells.symm
      rw [encodeRuns_eq, length_written_runs slots, length_written_runs otherWidths]
      exact Nat.add_le_add_left (Nat.mul_le_mul_right _ fewest) 4

theorem integerSlot_injective : Function.Injective integerSlot := by
  intro first second same
  have read := congrArg (rowValue .integer 0) same
  rw [rowValue_integerSlot, rowValue_integerSlot] at read
  cases read
  rfl

theorem doubleSlot_injective : Function.Injective doubleSlot := by
  intro first second same
  have read := congrArg (rowValue .double 0) same
  rw [rowValue_doubleSlot, rowValue_doubleSlot] at read
  cases read
  rfl

end Numbers

section Texts

variable {texts entries : List String} {codes : List Nat}

theorem total_perm {few many : List Nat} (perm : few.Perm many) : total few = total many := by
  induction perm with
  | nil => rfl
  | cons count rest ih => rw [total_cons, total_cons, ih]
  | swap first second rest =>
      simp only [total_cons]
      omega
  | trans one other first second => exact first.trans second

theorem length_dictionary (entries : List Bytes) (codes : List Nat) :
    (Bytes.ofNat 4 entries.length ++ StringArray.encode entries ++
        codes.flatMap (Bytes.ofNat 4)).length =
      4 + ((entries.length + 1) * 4 + total (entries.map (·.length))) + codes.length * 4 := by
  rw [List.length_append, List.length_append, Bytes.length_ofNat, StringArray.length_encode,
    StringArray.length_flatMap_words]

theorem encodeDictionary_eq (texts : List String) :
    encodeDictionary texts =
      let entries := (StringPool.empty.internAll texts).1.strings.toList
      Bytes.ofNat 4 entries.length ++ encodeStrings entries ++
        (texts.map entries.idxOf).flatMap (Bytes.ofNat 4) := by
  have codes := StringPool.codes_internAll texts
  dsimp only
  rw [← codes]
  rfl

/-- Every dictionary of texts holds the distinct ones, so no dictionary is shorter than theirs. -/
theorem dictionary_shortest (first : StringPool.FirstSeen texts entries)
    (coded : codes.length = texts.length) {other : Bytes}
    (spelled : Spells .dictionary .string (texts.map Text.encode) other) :
    (Bytes.ofNat 4 entries.length ++ encodeStrings entries ++
      codes.flatMap (Bytes.ofNat 4)).length ≤ other.length := by
  generalize spells : texts.map Text.encode = rows at spelled
  cases spelled with
  | @dictionary held array numbers holds few known =>
      have numbered := congrArg List.length spells
      rw [List.length_map, List.length_map] at numbered
      have among : entries.map Text.encode ⊆ held := by
        intro bytes member
        obtain ⟨text, inside, rfl⟩ := List.mem_map.mp member
        have row : Text.encode text ∈ numbers.map fun code => held.getD code [] := by
          rw [← spells]
          exact List.mem_map_of_mem ((first.mem_iff text).mp inside)
        obtain ⟨code, found, read⟩ := List.mem_map.mp row
        rw [List.getD_eq_getElem?_getD, List.getElem?_eq_getElem (known code found),
          Option.getD_some] at read
        rw [← read]
        exact List.getElem_mem (known code found)
      have unlike : (entries.map Text.encode).Nodup :=
        List.Pairwise.map _ (fun _ _ differs same => differs (encode_injective same)) first.distinct
      obtain ⟨same, perm, sublist⟩ := List.subperm_of_subset unlike among
      have count := sublist.length_le
      have bytes := total_le_of_sublist (sublist.map (·.length))
      rw [perm.length_eq, List.length_map] at count
      rw [total_perm (perm.map _)] at bytes
      have written := length_dictionary (entries.map Text.encode) codes
      rw [List.length_map] at written
      rw [encodeStrings, written, ← holds.encode_eq, length_dictionary]
      omega

end Texts

/-- A scheme that applies writes what words can count. -/
theorem exists_write {scheme : Scheme} {values : Values} (applies : scheme.Applies values)
    (short : values.extent ≤ maxWord) : ∃ payload, write scheme values = .ok (some payload) := by
  obtain ⟨payload, encoded⟩ :=
    Option.isSome_iff_exists.mp ((isSome_encode_iff scheme values).mpr applies)
  exact ⟨payload, write_eq_ok_iff.mpr ⟨lengthsFit_of_extent scheme short, encoded.symm⟩⟩

/-- What words can count is written.  Run lengths write maximal runs, each counted by a word.  A
dictionary writes the distinct texts in the order in which they are first seen.  No other payload
that reads as the same values is shorter. -/
theorem written_shortest :
    (∀ scheme values, scheme.Applies values → values.extent ≤ maxWord →
      ∃ payload, write scheme values = .ok (some payload)) ∧
    (∀ values payload, write .runLength values = .ok (some payload) →
      (∃ runs : List Run, runs.length ≤ maxWord ∧
        payload = Bytes.ofNat 4 runs.length ++ runs.flatMap Run.written ∧
        MaximalRuns values.rows runs ∧ ∀ run ∈ runs, run.count ≤ maxWord) ∧
      ∀ other, Restores .runLength values other → payload.length ≤ other.length) ∧
    ∀ texts payload, write .dictionary (.strings texts) = .ok (some payload) →
      (∃ entries, entries.length ≤ maxWord ∧
        payload = Bytes.ofNat 4 entries.length ++ encodeStrings entries ++
          (texts.map entries.idxOf).flatMap (Bytes.ofNat 4) ∧
        StringPool.FirstSeen texts entries) ∧
      ∀ other, Restores .dictionary (.strings texts) other → payload.length ≤ other.length := by
  have numbers {α : Type} [DecidableEq α] (slot : α → Bytes) (list : List α)
      (distinct : Function.Injective slot) (few : (runs list).length ≤ maxWord)
      (counts : ∀ count ∈ (runs list).map (·.2), count ≤ maxWord) :
      ∃ runs : List Run, runs.length ≤ maxWord ∧
        encodeRuns slot list = Bytes.ofNat 4 runs.length ++ runs.flatMap Run.written ∧
        MaximalRuns (list.map slot) runs ∧ ∀ run ∈ runs, run.count ≤ maxWord := by
    refine ⟨writtenRuns slot list, ?_, encodeRuns_eq slot list,
      maximalRuns_writtenRuns distinct list, fun run member => ?_⟩
    · rwa [writtenRuns, List.length_map]
    · obtain ⟨source, inside, rfl⟩ := List.mem_map.mp member
      exact counts _ (List.mem_map_of_mem inside)
  refine ⟨fun scheme values applies short => exists_write applies short,
    fun values payload written => ?_, fun texts payload written => ?_⟩
  · obtain ⟨fit, encoded⟩ := write_eq_ok_iff.mp written
    cases values with
    | integers list =>
        cases encoded
        refine ⟨numbers integerSlot list integerSlot_injective (fit.lengths _ List.mem_cons_self)
          fit.counts, ?_⟩
        intro other restores
        exact encodeRuns_shortest rfl (fun _ => Bytes.length_ofNat ..) integerSlot_injective
          (restores_iff_spells.mp restores)
    | doubles list =>
        cases encoded
        refine ⟨numbers doubleSlot list doubleSlot_injective (fit.lengths _ List.mem_cons_self)
          fit.counts, ?_⟩
        intro other restores
        exact encodeRuns_shortest rfl (fun _ => Bytes.length_ofNat ..) doubleSlot_injective
          (restores_iff_spells.mp restores)
    | strings list => cases encoded
  · obtain ⟨fit, encoded⟩ := write_eq_ok_iff.mp written
    have first := StringPool.firstSeen_internAll texts
    have few : (StringPool.empty.internAll texts).1.strings.toList.length ≤ maxWord :=
      fit.lengths _ List.mem_cons_self
    cases encoded
    rw [encodeDictionary_eq]
    refine ⟨⟨_, few, rfl, first⟩, fun other restores => ?_⟩
    exact dictionary_shortest first (List.length_map _) (restores_iff_spells.mp restores)

/-- Two runs of three numbers, and two texts of which one stands twice. -/
theorem written_shortest_repeated :
    (∃ payload, write .dictionary (.strings ["b", "a", "b"]) = .ok (some payload)) ∧
      (∀ other, Restores .runLength (.integers [5, 5, 7]) other → 20 ≤ other.length) ∧
      ∀ other, Restores .dictionary (.strings ["b", "a", "b"]) other → 30 ≤ other.length := by
  obtain ⟨exist, ofNumbers, ofTexts⟩ := written_shortest
  have size : (encodeDictionary ["b", "a", "b"]).length = 30 := by decide +kernel
  refine ⟨exist .dictionary (.strings ["b", "a", "b"]) rfl (by decide), ?_, ?_⟩
  · exact (ofNumbers (.integers [5, 5, 7]) _ rfl).2
  · intro other restores
    rw [← size]
    exact (ofTexts ["b", "a", "b"] _ (by decide +kernel)).2 other restores

end Payload

end Columnar
