import Columnar.Proofs.Pack.RoundTrip
import Columnar.Proofs.Tabular.Filling

namespace Columnar

/-!
Packing delimited text into memory.

Columns that come from a text can be packed, and nothing is written before that is sure.  So either
everything is packed, or the stores are as they were.
-/

namespace Pack

section Relations

variable {options : PackOptions} {table : Relation} {before after : Stores} {path : String}
  {place : Place}

theorem chunkCount_le (positive : 0 < options.chunkRows) (some : 1 ≤ table.tupleCount) :
    chunkCount options table ≤ table.tupleCount := by
  apply Nat.div_le_of_le_mul
  have wide : table.tupleCount - 1 ≤ options.chunkRows * (table.tupleCount - 1) :=
    Nat.le_mul_of_pos_left _ positive
  rw [Nat.mul_sub_one] at wide
  have least : options.chunkRows ≤ options.chunkRows * table.tupleCount :=
    Nat.le_mul_of_pos_right _ some
  omega

theorem relation_packed (valid : options.validate = .ok ()) (sound : table.Sound)
    (fit : ChunksFit (.cascade options.cascadeDepth) options table)
    (resolved : before.resolve path = .ok place) (memory : place.store = .memory)
    (some : 1 ≤ table.tupleCount) (few : table.tupleCount ≤ maxWord) :
    ∃ report after,
      relation (.cascade options.cascadeDepth) options before path table = (.ok report, after) := by
  have chunks := Nat.le_trans (chunkCount_le (validate_ok valid).1 some) few
  obtain ⟨ranges, planned⟩ := exists_plan valid some chunks
  exact exists_report_of_ended planned resolved memory (fit.ended sound planned)

/-- A relation without rows is refused before anything is written. -/
theorem relation_empty {codec : Codec} (none : table.tupleCount = 0) :
    ∃ error, relation codec options before path table = (.error error, before) := by
  rcases relation_cases codec options before path table with
    ⟨error, refused⟩ | ⟨place, ranges, resolved, planned⟩
  · exact ⟨.single error, refused⟩
  · unfold plan rowRanges at planned
    rw [if_pos (.inl none)] at planned
    cases valid : options.validate with
    | error fault =>
        rw [valid] at planned
        contradiction
    | ok =>
        rw [valid] at planned
        contradiction

end Relations

section Texts

variable {stores : Stores} {source path : String} {specs : List ColumnSpec}
  {options : PackOptions}

theorem delimitedText_of_ingested {text : Bytes} {table : Relation}
    (valid : options.validate = .ok ()) (read : readPath stores source = .ok text)
    (ingested : Tabular.ingest options.format specs text = .ok table) :
    delimitedText stores source path specs options =
      relation (.cascade options.cascadeDepth) options stores path table := by
  simp only [delimitedText, valid, ingestPath, read, ingested, mapError_ok, bind, Except.bind]

/-- A text is refused as it stands, or there is a relation to pack. -/
theorem delimitedText_cases (stores : Stores) (source path : String) (specs : List ColumnSpec)
    (options : PackOptions) :
    (∃ error, delimitedText stores source path specs options = (.error error, stores)) ∨
    ∃ text table, options.validate = .ok () ∧ readPath stores source = .ok text ∧
      Tabular.ingest options.format specs text = .ok table := by
  cases valid : options.validate with
  | error fault =>
      left
      simp only [delimitedText, valid, mapError_error, bind, Except.bind]
      exact ⟨_, rfl⟩
  | ok =>
      cases read : readPath stores source with
      | error fault =>
          left
          simp only [delimitedText, valid, ingestPath, read, mapError_ok, bind, Except.bind]
          exact ⟨_, rfl⟩
      | ok text =>
          cases ingested : Tabular.ingest options.format specs text with
          | error fault =>
              left
              simp only [delimitedText, valid, ingestPath, read, ingested, mapError_ok, bind,
                Except.bind]
              exact ⟨_, rfl⟩
          | ok table => exact .inr ⟨text, table, rfl, rfl, ingested⟩

/-- What packing a text does is settled before it writes: it ends in an error with the stores as
they were, or it succeeds, which it does for every text that has rows and can be read. -/
theorem delimitedText_all_or_nothing {key : String}
    (small : ∀ text table, readPath stores source = .ok text →
      Tabular.ingest options.format specs text = .ok table →
        text.length ≤ maxWord ∧ ChunksFit (.cascade options.cascadeDepth) options table) :
    (∀ error after,
      delimitedText stores source (Place.memoryScheme ++ key) specs options = (.error error, after) →
        after = stores) ∧
    (∀ text table, options.validate = .ok () → readPath stores source = .ok text →
      Tabular.ingest options.format specs text = .ok table →
      Tabular.rows options.format text ≠ [] →
        ∃ report after, delimitedText stores source (Place.memoryScheme ++ key) specs options =
          (.ok report, after)) := by
  have packed {text : Bytes} {table : Relation} (valid : options.validate = .ok ())
      (read : readPath stores source = .ok text)
      (ingested : Tabular.ingest options.format specs text = .ok table)
      (some : 1 ≤ table.tupleCount) :
      ∃ report after, delimitedText stores source (Place.memoryScheme ++ key) specs options =
        (.ok report, after) := by
    obtain ⟨short, fit⟩ := small text table read ingested
    obtain ⟨sound, count⟩ := Tabular.ingest_sound ingested
    have few := Tabular.length_rows options.format text
    rw [delimitedText_of_ingested valid read ingested]
    exact relation_packed valid sound fit (stores.resolve_memory key) rfl some (by omega)
  constructor
  · intro error after failed
    rcases delimitedText_cases stores source (Place.memoryScheme ++ key) specs options with
      ⟨refusal, refused⟩ | ⟨text, table, valid, read, ingested⟩
    · rw [refused] at failed
      exact (Prod.mk.inj failed).2.symm
    · by_cases none : table.tupleCount = 0
      · obtain ⟨refusal, refused⟩ := @relation_empty options table stores
          (Place.memoryScheme ++ key) (.cascade options.cascadeDepth) none
        rw [delimitedText_of_ingested valid read ingested, refused] at failed
        exact (Prod.mk.inj failed).2.symm
      · obtain ⟨report, final, done⟩ := packed valid read ingested (by omega)
        rw [done] at failed
        cases failed
  · intro text table valid read ingested some
    have count := (Tabular.ingest_sound ingested).2
    have positive := List.length_pos_iff.mpr some
    exact packed valid read ingested (by omega)

/-- A store with a text that is read as `threeRows`. -/
def threeLines : Stores :=
  (Stores.empty "").put ⟨.memory, ⟨["in"]⟩⟩ (Text.encode "7,x\n,y\n-1,z\n")

theorem delimitedText_all_or_nothing_threeLines :
    ∃ report after, delimitedText threeLines "memory://in" (Place.memoryScheme ++ "t")
      [⟨"n", .integer⟩, ⟨"s", .skip⟩] inPairs = (.ok report, after) := by
  have read : readPath threeLines "memory://in" = .ok (Text.encode "7,x\n,y\n-1,z\n") := rfl
  have ingested : Tabular.ingest inPairs.format [⟨"n", .integer⟩, ⟨"s", .skip⟩]
      (Text.encode "7,x\n,y\n-1,z\n") = .ok threeRows := by cbv
  obtain ⟨-, packs⟩ := @delimitedText_all_or_nothing threeLines "memory://in"
    [⟨"n", .integer⟩, ⟨"s", .skip⟩] inPairs "t" (by
      intro text table found taken
      rw [read] at found
      cases found
      rw [ingested] at taken
      cases taken
      exact ⟨by decide, sized_threeRows.chunksFit⟩)
  exact packs _ threeRows rfl read ingested (by
    have count := (Tabular.ingest_sound ingested).2
    intro none
    rw [none] at count
    contradiction)

end Texts

end Pack

end Columnar
