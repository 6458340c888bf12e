import Columnar.Proofs.Pack.RoundTrip
import Columnar.Proofs.Pack.Schedules
import Columnar.Proofs.Read.Agreement
import Columnar.Proofs.Read.Texts

namespace Columnar.Pack

/-!
The catalog as the point at which a packing takes effect.

Tasks write parts alone, and the catalog is the last object that is written.  Whenever packing is
interrupted there is either no catalog, or all that it names.
-/

def Stage.report? : Stage → Option PackReport
  | .ended _ (.ok report) => some report
  | _ => none

/-- All data columns of a relation are read back from a path, and the path can be described. -/
structure ReadsBack (relation : Relation) (path : String) (stores : Stores) : Prop where
  columns : ∀ index column values, relation.columns[index]? = some column →
    column.values = some values → ∃ cells, cells.length = relation.tupleCount ∧
      Read.Restores stores path index values column.validity cells
  described : ∃ description, StoreDescription.ofPath stores path = .ok description

section Stages

variable {codec : Codec} {options : PackOptions} {table : Relation} {before stores : Stores}
  {path : String} {place : Place} {ids : List Nat} {ranges : List RowRange} {depth : Nat}

theorem loadCatalog_absent (memory : place.store = .memory)
    (absent : stores.object? (place.child StoredFile.catalog.name) = none) :
    loadCatalog stores place =
      .error (.access (.notFound (place.child StoredFile.catalog.name).location)) := by
  have none : stores.memory.get? (place.location.child StoredFile.catalog.name) = none := by
    simpa only [Stores.object?, Place.child, memory] using absent
  simp only [loadCatalog, Stores.read, Place.child, memory, none, mapError_error, bind, Except.bind]

theorem Stored.readsBack {after : Stores}
    (stored : Stored (.cascade depth) options table before after place ranges)
    (resolved : before.resolve path = .ok place) (built : table.Built)
    (sized : Sized (.cascade depth) options table) : ReadsBack table path after := by
  have hold := sized.chunksFit.chunksHold stored.planned
  refine ⟨fun index column values found data => ?_, ?_⟩
  · refine ⟨_, stored.restores resolved built.sound sized.columns sized.parts found data ?_⟩
    intro bits range bytes member filled compressed
    exact hold index column values bits range bytes found filled member compressed
  · obtain ⟨columns, described, -⟩ :=
      stored.describe resolved built.sound sized.columns sized.parts hold
    exact ⟨_, described⟩

theorem ReadsBack.of_agrees {after : Stores} (back : ReadsBack table path after)
    (agrees : stores.Agrees after) : ReadsBack table path stores := by
  refine ⟨fun index column values found data => ?_, ?_⟩
  · obtain ⟨cells, length, rows, -, hands⟩ := back.columns index column values found data
    refine ⟨cells, length, Read.Hands.restores (fun σ sink state => ?_) rows⟩
    rw [agrees.readColumn, hands]
  · rw [agrees.describe]
    exact back.described

/-- At every stage of a packing into a directory without a catalog, whatever parts are there, it
still has none or all of the relation is read back. -/
theorem catalog_commits {moves : List Move} {stage : Stage} (built : table.Built)
    (resolved : before.resolve path = .ok place) (memory : place.store = .memory)
    (absent : before.object? (place.child StoredFile.catalog.name) = none)
    (sized : Sized (.cascade depth) options table) (distinct : ids.Nodup)
    (moved : (Stage.start (.cascade depth) options before path table ids).after? moves =
      some stage) :
    match stage.report? with
    | none => loadCatalog stage.stores place =
        .error (.access (.notFound (place.child StoredFile.catalog.name).location))
    | some report => loadCatalog stage.stores place = .ok report.catalog ∧
        ReadsBack table path stage.stores := by
  cases planned : plan options table with
  | error error =>
      rw [Stage.start_refused planned] at moved
      obtain ⟨-, rfl⟩ := Stage.after?_ended moved
      exact loadCatalog_absent memory absent
  | ok ranges =>
      have leads := Stage.leads_of_after? planned resolved memory distinct moved
      cases stage with
      | working job session =>
          obtain ⟨rfl, tracks⟩ := leads
          obtain ⟨log, written, logged⟩ := tracks.written
          have parts : ∀ write ∈ log,
              write ∈ partsOf (.cascade depth) options table place.location ranges :=
            fun write member => tracks.mem_parts ((logged write).mp member)
          refine loadCatalog_absent memory ?_
          show session.stores.object? _ = none
          rw [written]
          exact (catalog_putAll parts).trans absent
      | ended after result =>
          obtain ⟨rfl, agrees⟩ : result = (relation (.cascade depth) options before path table).1 ∧
            after.Agrees (relation (.cascade depth) options before path table).2 := leads
          by_cases none : failures 0 (columns (.cascade depth) options table place.location
              ranges) = []
          · have whole := relation_ended planned resolved memory none
            obtain ⟨found, others, same, stored⟩ := stored_of_ok whole
            rw [resolved] at same
            cases same
            rw [stored.planned] at planned
            cases planned
            rw [whole] at agrees ⊢
            refine ⟨?_, (stored.readsBack resolved built sized).of_agrees agrees⟩
            show loadCatalog after place = _
            rw [agrees.loadCatalog, stored.loadCatalog sized.columns]
          · rw [relation_stopped planned resolved memory none] at agrees ⊢
            refine loadCatalog_absent memory ?_
            show after.object? _ = _
            rw [agrees.object?, catalog_putAll fun write member => member]
            exact absent

def partsWritten : List Move := [.advance 0, .join 1, .advance 0, .advance 0, .join 0]

def overStalePart : Stage :=
  Stage.start (.cascade 3) inPairs
    ((Stores.empty "").put ⟨.memory, ⟨["t", "column0_part0"]⟩⟩ [0]) "memory://t" threeRows [5, 2]

theorem catalog_commits_threeRows :
    ∃ middle final cells, overStalePart.after? partsWritten = some middle ∧
      loadCatalog middle.stores ⟨.memory, ⟨["t"]⟩⟩ =
        .error (.access (.notFound ⟨["t", "metadata"]⟩)) ∧
      overStalePart.after? (partsWritten ++ [.conclude]) = some final ∧
      Restored (.integers [7, integerPlaceholder, -1]) (.ofList [true, false, true]) cells ∧
      Read.column final.stores "memory://t" 0 .text "" = .ok (3, textOf cells) := by
  have commits {moves : List Move} {stage : Stage}
      (moved : overStalePart.after? moves = some stage) :=
    @catalog_commits inPairs threeRows
      ((Stores.empty "").put ⟨.memory, ⟨["t", "column0_part0"]⟩⟩ [0]) "memory://t"
      ⟨.memory, ⟨["t"]⟩⟩ [5, 2] 3 moves stage built_threeRows rfl rfl rfl sized_threeRows (by decide)
      moved
  have halfway : (overStalePart.after? partsWritten).any (·.report?.isNone) = true := by
    decide +kernel
  have whole :
      (overStalePart.after? (partsWritten ++ [.conclude])).any (·.report?.isSome) = true := by
    decide +kernel
  obtain ⟨middle, halted, unreported⟩ := (Option.any_eq_true ..).mp halfway
  obtain ⟨final, finished, reported⟩ := (Option.any_eq_true ..).mp whole
  obtain ⟨report, reported⟩ := Option.isSome_iff_exists.mp reported
  have absent := commits halted
  have committed := commits finished
  rw [Option.isNone_iff_eq_none.mp unreported] at absent
  rw [reported] at committed
  obtain ⟨cells, length, rows, -, hands⟩ := committed.2.columns 0 _ _ rfl rfl
  refine ⟨middle, final, cells, halted, absent, finished, rows, ?_⟩
  rw [hands, Sink.run_text, length]
  rfl

end Stages

end Columnar.Pack
