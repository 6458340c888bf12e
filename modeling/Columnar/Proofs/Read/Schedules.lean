import Columnar.Proofs.Read.Safety
import Columnar.Proofs.Read.Sessions

namespace Columnar.Read

/-!
Schedules of the tasks that write columns as text.

In whatever order tasks take their steps and are joined, writing goes on until it ends, and each
request ends as if its column were written alone.
-/

/-- Writing one column of a job, with no other beside it. -/
def Job.alone (job : Job) (before : Stores) (column : Nat) : Except Error (Nat × Stores) :=
  intoFile before job.path column (outputPath job.output column)

/-- How writing the requested columns ends, against writing each of them alone. -/
structure Job.EndsWith (job : Job) (before after : Stores)
    (result : Except RunError (List (Nat × Nat))) : Prop where
  succeeds : (∃ counts, result = .ok counts) ↔
    ∀ column ∈ job.requests, ∃ done, job.alone before column = .ok done
  counts : ∀ counts, result = .ok counts →
    List.Forall₂ (fun column count => count.1 = column ∧
      ∃ written, job.alone before column = .ok (count.2, written)) job.requests counts
  failures : ∀ error, result = .error error → ∃ failed, error = .columns failed ∧
    failed.Pairwise (fun left right => left.column ≤ right.column) ∧
    (failed.map (·.column)).Perm
      (job.requests.filter fun column => !(job.alone before column).isOk) ∧
    ∀ failure ∈ failed, job.alone before failure.column = .error failure.error
  files : ∀ column ∈ job.requests, ∀ rows written,
    job.alone before column = .ok (rows, written) → ∃ place content,
      before.resolve (outputPath job.output column) = .ok place ∧
      text before job.path column = .ok (rows, content) ∧
      after.object? place = some (Text.encode content)
  others : ∀ place, after.object? place ≠ before.object? place → ∃ column ∈ job.requests,
    (∃ done, job.alone before column = .ok done) ∧
      before.resolve (outputPath job.output column) = .ok place
  directory : after.directory = before.directory

section Outcomes

variable {job : Job} {before after : Stores} {source target : Location} {column : Nat}

theorem Job.alone_eq (located : Located job.path job.output source target) :
    job.alone before column = (text before job.path column).map fun read =>
      (read.1, before.putAll .memory [textFile target column read.2]) :=
  intoFile_eq located before column

theorem Job.alone_error_iff (located : Located job.path job.output source target)
    {error : Error} :
    job.alone before column = .error error ↔ text before job.path column = .error error := by
  rw [job.alone_eq located]
  cases text before job.path column with
  | error other => simp [Except.map]
  | ok read => simp [Except.map]

theorem Job.alone_ok_iff (located : Located job.path job.output source target) :
    (∃ done, job.alone before column = .ok done) ↔
      ∃ read, text before job.path column = .ok read := by
  rw [job.alone_eq located]
  cases text before job.path column with
  | error error => simp [Except.map]
  | ok read => simp [Except.map]

theorem Job.isOk_alone (located : Located job.path job.output source target) :
    (!(job.alone before column).isOk) = (failure? before job.path column).isSome := by
  rw [job.alone_eq located, failure?]
  cases text before job.path column with
  | error error => rfl
  | ok read => rfl

theorem failures_eq_nil_iff {path : String} {requests : List Nat} :
    requests.filterMap (failure? before path) = [] ↔
      ∀ column ∈ requests, ∃ read, text before path column = .ok read := by
  rw [List.filterMap_eq_nil_iff]
  apply forall₂_congr
  intro column requested
  rw [failure?]
  cases text before path column with
  | error error => simp
  | ok read => simp

theorem columns_failures (before : Stores) (path : String) (requests : List Nat) :
    (requests.filterMap (failure? before path)).map (·.column) =
      requests.filter fun column => (failure? before path column).isSome := by
  induction requests with
  | nil => rfl
  | cons column rest ih =>
      rw [List.filterMap_cons, List.filter_cons]
      cases failed : failure? before path column with
      | none => exact ih
      | some failure =>
          rw [Option.isSome_some, if_pos rfl, List.map_cons, ih, (failure?_eq_some.mp failed).1]

theorem forall₂_rowCounts {path : String} {requests : List Nat}
    (succeeded : ∀ column ∈ requests, ∃ read, text before path column = .ok read) :
    List.Forall₂ (fun column count => count.1 = column ∧
      ∃ content, text before path column = .ok (count.2, content)) requests
        (rowCounts before path requests) := by
  induction requests with
  | nil => exact .nil
  | cons column rest ih =>
      obtain ⟨read, done⟩ := succeeded column List.mem_cons_self
      have later := ih fun other member => succeeded other (List.mem_cons_of_mem _ member)
      rw [rowCounts, List.filterMap_cons, done]
      exact .cons ⟨rfl, read.2, done⟩ later

theorem object?_textFile {path : String} {requests : List Nat} {rows : Nat} {content : String}
    (requested : column ∈ requests) (read : text before path column = .ok (rows, content)) :
    (before.putAll .memory (textFiles before path target requests)).object?
      ⟨.memory, target.child (StoredFile.text column).name⟩ = some (Text.encode content) := by
  have takes : before.Takes .memory (target.child (StoredFile.text column).name) := trivial
  have files (write : Location × Bytes) (member : write ∈ textFiles before path target requests) :
      ∃ other read, text before path other = .ok read ∧ write = textFile target other read.2 := by
    obtain ⟨other, -, made⟩ := List.mem_filterMap.mp member
    cases done : text before path other with
    | error error =>
        rw [done] at made
        contradiction
    | ok read =>
        rw [done] at made
        cases made
        exact ⟨other, read, done, rfl⟩
  refine (takes.keeps_putAll ?_ ?_ ?_).object?
  · intro write member
    obtain ⟨other, read, -, rfl⟩ := files write member
    exact Stores.beside_child ..
  · refine List.mem_filterMap.mpr ⟨column, requested, ?_⟩
    rw [read]
    rfl
  · intro write member here
    obtain ⟨other, otherRead, done, rfl⟩ := files write member
    cases StoredFile.child_injective here
    rw [read] at done
    cases done
    rfl

theorem exists_of_object?_ne {path : String} {requests : List Nat} {place : Place}
    (changed : (before.putAll .memory (textFiles before path target requests)).object? place ≠
      before.object? place) :
    ∃ column ∈ requests, (∃ read, text before path column = .ok read) ∧
      place = ⟨.memory, target.child (StoredFile.text column).name⟩ := by
  by_contra none
  apply changed
  apply Stores.object?_putAll_of_ne
  intro write member here
  apply none
  obtain ⟨column, requested, made⟩ := List.mem_filterMap.mp member
  cases read : text before path column with
  | error error =>
      rw [read] at made
      contradiction
  | ok done =>
      rw [read] at made
      cases made
      exact ⟨column, requested, ⟨done, read⟩, here.symm⟩

theorem Job.endsWith_intoFiles (located : Located job.path job.output source target)
    (agrees : after.Agrees (intoFiles before job.path job.requests job.output).2) :
    job.EndsWith before after (intoFiles before job.path job.requests job.output).1 := by
  rw [intoFiles_eq located] at agrees ⊢
  have object (place : Place) := agrees.object? place
  dsimp only at object ⊢
  refine ⟨?_, ?_, ?_, ?_, ?_, ?_⟩
  · simp only [job.alone_ok_iff located, ← failures_eq_nil_iff]
    split
    · rename_i none
      exact iff_of_true ⟨_, rfl⟩ none
    · rename_i some
      apply iff_of_false
      · rintro ⟨counts, done⟩
        contradiction
      · exact some
  · intro counts done
    split at done
    · rename_i none
      cases done
      apply (forall₂_rowCounts (failures_eq_nil_iff.mp none)).imp
      rintro column count ⟨same, content, read⟩
      refine ⟨same, before.putAll .memory [textFile target column content], ?_⟩
      rw [job.alone_eq located, read]
      rfl
    · contradiction
  · intro error failed
    split at failed
    · contradiction
    · cases failed
      have sorted := List.mergeSort_perm (job.requests.filterMap (failure? before job.path))
        fun left right => left.column ≤ right.column
      refine ⟨_, rfl, pairwise_sorted _, ?_, ?_⟩
      · simp only [job.isOk_alone located, ← columns_failures]
        exact sorted.map _
      · intro failure member
        exact (job.alone_error_iff located).mpr (mem_failures_iff.mp (sorted.subset member)).2
  · intro column requested rows written done
    obtain ⟨⟨count, content⟩, read⟩ := (job.alone_ok_iff located).mp ⟨_, done⟩
    rw [job.alone_eq located, read] at done
    cases done
    refine ⟨_, content, located.target before column, read, ?_⟩
    rw [object, object?_textFile requested read]
  · intro place changed
    rw [object] at changed
    obtain ⟨column, requested, read, rfl⟩ := exists_of_object?_ne changed
    exact ⟨column, requested, (job.alone_ok_iff located).mpr read, located.target before column⟩
  · exact agrees.directory.trans (Stores.directory_putAll ..)

end Outcomes

section Stages

variable {job : Job} {before : Stores} {source target : Location} {stage next : Stage}
  {move : Move} {moves : List Move}

/-- A stage on the way to what writing the columns one after another gives, or there. -/
def Stage.Leads (job : Job) (before : Stores) (target : Location) : Stage → Prop
  | .working session => session.Tracks job before target
  | .ended stores result =>
      result = (intoFiles before job.path job.requests job.output).1 ∧
        stores.Agrees (intoFiles before job.path job.requests job.output).2

theorem Stage.Leads.conclude {session : Session}
    (located : Located job.path job.output source target)
    (tracks : session.Tracks job before target) (concluded : job.conclude? session = some next) :
    next.Leads job before target ∧ next.remaining = 0 := by
  unfold Job.conclude? at concluded
  split at concluded
  · rename_i all
    have agrees := tracks.agrees all
    have perm := tracks.collected.failures_perm all
    split at concluded
    · rename_i none
      cases concluded
      rw [none, List.nil_perm] at perm
      refine ⟨?_, rfl⟩
      rw [Leads, intoFiles_eq located, perm, tracks.collected.counts_eq all perm]
      exact ⟨rfl, agrees⟩
    · rename_i some
      cases concluded
      refine ⟨?_, rfl⟩
      rw [Leads, intoFiles_eq located, tracks.collected.sorted_eq all]
      refine ⟨?_, agrees⟩
      dsimp only
      split
      · rename_i none
        rw [none, List.perm_nil] at perm
        exact (some perm).elim
      · rfl
  · contradiction

/-- A move leads on, and leaves less to do. -/
theorem Stage.Leads.move? (located : Located job.path job.output source target)
    (distinct : job.ids.Nodup) (leads : stage.Leads job before target)
    (moved : job.move? move stage = some next) :
    next.Leads job before target ∧ next.remaining < stage.remaining := by
  cases stage with
  | ended stores result => contradiction
  | working session =>
      cases move with
      | advance index =>
          obtain ⟨later, advanced, rfl⟩ := Option.map_eq_some_iff.mp moved
          exact Session.Tracks.advance leads located advanced
      | join index =>
          obtain ⟨later, joined, rfl⟩ := Option.map_eq_some_iff.mp moved
          exact ⟨Session.Tracks.join leads distinct joined, job.remaining_join? joined⟩
      | conclude =>
          obtain ⟨done, none⟩ := conclude located leads moved
          exact ⟨done, none ▸ Nat.succ_pos _⟩

/-- However the tasks take turns and in whatever order they are joined, writing goes on until it
ends.  It ends as writing the columns one after another does: it succeeds when each of them alone
would, and leaves the texts of those that can be read, whatever becomes of the others. -/
theorem tasks_write_texts {source target : String} (before : Stores)
    (reads : job.path = Place.memoryScheme ++ source)
    (writes : job.output = Place.memoryScheme ++ target)
    (named : ∃ char ∈ target.toList, char ≠ '/') (tasked : job.ids.length = job.requests.length)
    (distinct : job.ids.Nodup) :
    (∀ moves stage, job.after? before moves = some stage →
      moves.length ≤ (job.start before).remaining ∧
        ((∃ after result, stage = .ended after result) ∨
          ∃ move next, job.move? move stage = some next)) ∧
    ∀ moves after result, job.after? before moves = some (.ended after result) →
      result = (intoFiles before job.path job.requests job.output).1 ∧
        after.Agrees (intoFiles before job.path job.requests job.output).2 ∧
        job.EndsWith before after result := by
  have located : Located job.path job.output (.ofPath source) (.ofPath target) := by
    rw [reads, writes]
    exact located_memory source named
  have first : (Stage.working (job.start before)).Leads job before (.ofPath target) :=
    .start job before (.ofPath target)
  have step {stage next : Stage} {move : Move} (leads : stage.Leads job before (.ofPath target))
      (moved : job.move? move stage = some next) := leads.move? located distinct moved
  have reached {moves : List Move} {stage : Stage} (moved : job.after? before moves = some stage) :
      stage.Leads job before (.ofPath target) :=
    Moves.after?_keeps (fun leads moved => (step leads moved).1) first moved
  constructor
  · intro moves stage moved
    have bounded : moves.length ≤ (Stage.working (job.start before)).remaining :=
      Moves.length_le_remaining (fun leads moved => (step leads moved).1)
        (fun leads moved => (step leads moved).2) first moved
    have leads := reached moved
    refine ⟨bounded, ?_⟩
    cases stage with
    | ended stores result => exact .inl ⟨stores, result, rfl⟩
    | working session => exact .inr (Session.Tracks.exists_move leads tasked)
  · intro moves after result moved
    obtain ⟨rfl, agrees⟩ := reached moved
    exact ⟨rfl, agrees, job.endsWith_intoFiles located agrees⟩

/-- A column of one null, requested twice, and one that there is not, written beside the parts. -/
def besideParts : Job := ⟨"memory://t", "memory://t/", [0, 5, 0], [3, 9, 4]⟩

def crosswise : List Move :=
  [.advance 0, .advance 2, .advance 2, .advance 0, .advance 1, .join 1, .advance 0, .advance 0,
    .advance 2, .join 0, .advance 2, .join 2, .conclude]

def Stage.result? : Stage → Option (Except RunError (List (Nat × Nat)))
  | .working _ => none
  | .ended _ result => some result

theorem tasks_write_texts_besideParts :
    ∃ after, besideParts.after? ColumnReader.nullStores crosswise =
        some (.ended after (.error (.columns [⟨5, .noColumn 5 1⟩]))) ∧
      after.object? ⟨.memory, ⟨["t", "column0.txt"]⟩⟩ = some (Text.encode "null\n") := by
  have ends : (besideParts.after? ColumnReader.nullStores crosswise).any (·.result?.isSome) =
      true := by decide +kernel
  obtain ⟨stage, moved, ended⟩ := (Option.any_eq_true ..).mp ends
  cases stage with
  | working session => contradiction
  | ended after result =>
      obtain ⟨same, agrees, -⟩ := (@tasks_write_texts besideParts "t" "t/" ColumnReader.nullStores
        (by decide) (by decide) ⟨'t', by decide, by decide⟩ rfl (by decide)).2 crosswise after
          result moved
      have whole : (intoFiles ColumnReader.nullStores besideParts.path besideParts.requests
          besideParts.output).1 = .error (.columns [⟨5, .noColumn 5 1⟩]) := by decide +kernel
      rw [whole] at same
      subst same
      refine ⟨after, moved, ?_⟩
      rw [agrees.object?]
      decide +kernel

end Stages

end Columnar.Read
