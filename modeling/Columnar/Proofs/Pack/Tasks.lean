import Columnar.Pack
import Columnar.Proofs.Moves

namespace Columnar.Pack

/-!
Packing with one task a column.

Tasks advance in any order, a step at a time, and a step writes at most one object.  A task that has
ended is joined, in any order too, and known by its id alone.  When all are joined the failures are
listed, or the catalog is written.

`Task.run` is what packing does with the column from where its task stands; no step changes it.
-/

/-- What a packing is given and has settled before its tasks start.  The ids are those of the tasks,
column by column. -/
structure Job where
  codec : Codec
  options : PackOptions
  relation : Relation
  place : Place
  ranges : List RowRange
  ids : List Nat

def Job.columnOf? (job : Job) (id : Nat) : Option Nat := job.ids.idxOf? id

/-- Where a column stands: in front of ranges that are still to be packed, or at its end. -/
inductive Task where
  | packing (chunkIndex : Nat) (ranges : List RowRange) (progress : Progress)
  | ended (run : ColumnRun)

def Progress.partFile (directory : Location) (progress : Progress) : Location × Bytes :=
  (directory.child (StoredFile.part progress.stats.column progress.stats.parts).name,
    progress.part.toStored.encode)

/-- What is written in front of a chunk of the given size, if it does not fit. -/
def Progress.closing? (directory : Location) (progress : Progress) (size : Nat) :
    Option (Location × Bytes) :=
  if progress.part.canAdd size then none else some (progress.partFile directory)

namespace Task

def start (job : Job) (index : Nat) (column : Column) : Task :=
  let stats := ColumnStats.start index column.name column.type
  if column.type = .skip then .ended ⟨[], .ok stats⟩
  else .packing 0 job.ranges ⟨stats, .empty column.type job.options.partMaxBytes, []⟩

/-- The next step, unless the task has ended: the object that it writes, if any, and where the
column stands then. -/
def step? (job : Job) (column : Column) : Task → Option (Option (Location × Bytes) × Task)
  | .packing _ [] progress =>
      if progress.part.isEmpty then some (none, .ended ⟨progress.writes.reverse, .ok progress.stats⟩)
      else
        let last := progress.flush job.place.location
        some (some (progress.partFile job.place.location),
          .ended ⟨last.writes.reverse, .ok last.stats⟩)
  | .packing chunkIndex (range :: rest) progress =>
      match packRange job.codec job.options.verify job.relation column progress.stats.column
          chunkIndex range with
      | .error error => some (none, .ended ⟨progress.writes.reverse, .error error⟩)
      | .ok (size, bytes) =>
          some (progress.closing? job.place.location bytes.length,
            .packing (chunkIndex + 1) rest (progress.add job.place.location size bytes))
  | .ended _ => none

def writes : Task → List (Location × Bytes)
  | .packing _ _ progress => progress.writes.reverse
  | .ended run => run.writes

def run (job : Job) (column : Column) : Task → ColumnRun
  | .packing chunkIndex ranges progress =>
      packRanges job.codec job.options.verify job.relation column job.place.location chunkIndex
        ranges progress
  | .ended run => run

def remaining : Task → Nat
  | .packing _ ranges _ => ranges.length + 1
  | .ended _ => 0

end Task

/-- A packing under way.  A task that is joined leaves its statistics at its column, or a
failure. -/
structure Session where
  stores : Stores
  tasks : List Task
  unjoined : List Nat
  stats : List (Option ColumnStats)
  failures : List ColumnFailure

inductive Stage where
  | working (job : Job) (session : Session)
  | ended (stores : Stores) (result : Except RunError PackReport)

inductive Move where
  | advance (index : Nat)
  | join (index : Nat)
  | conclude
deriving DecidableEq, Repr

namespace Job

def start (job : Job) (stores : Stores) : Session where
  stores
  tasks := job.relation.columns.zipIdx.map fun entry => Task.start job entry.2 entry.1
  unjoined := List.range job.relation.columns.length
  stats := List.replicate job.relation.columns.length none
  failures := []

/-- A task whose write the store refuses ends there. -/
def advance? (job : Job) (index : Nat) (session : Session) : Option Session := do
  let task ← session.tasks[index]?
  let column ← job.relation.columns[index]?
  let (write?, next) ← task.step? job column
  match write? with
  | none => return { session with tasks := session.tasks.set index next }
  | some write =>
      match session.stores.write ⟨job.place.store, write.1⟩ write.2 with
      | .ok stores => return { session with stores, tasks := session.tasks.set index next }
      | .error fault =>
          let refused := Task.ended ⟨task.writes, .error (.access fault)⟩
          return { session with tasks := session.tasks.set index refused }

def collect (job : Job) (id : Nat) (run : ColumnRun) (session : Session) : Session :=
  match run.result with
  | .ok stats =>
      match job.columnOf? id with
      | some column => { session with stats := session.stats.set column (some stats) }
      | none => session
  | .error error =>
      let failure : ColumnFailure := ⟨(job.columnOf? id).getD 0, error⟩
      { session with failures := session.failures ++ [failure] }

def join? (job : Job) (index : Nat) (session : Session) : Option Session :=
  if index ∈ session.unjoined then
    match session.tasks[index]?, job.ids[index]? with
    | some (.ended run), some id =>
        some (job.collect id run { session with unjoined := session.unjoined.erase index })
    | _, _ => none
  else none

def conclude? (job : Job) (session : Session) : Option Stage :=
  if session.unjoined = [] then
    match session.failures with
    | [] =>
        let stats := session.stats.filterMap id
        let catalog := catalogOf job.ranges.length stats
        match session.stores.write (job.place.child StoredFile.catalog.name) catalog.encode with
        | .ok stores => some (.ended stores (.ok ⟨catalog, stats⟩))
        | .error fault => some (.ended session.stores (.error (.single (.access fault))))
    | failures =>
        let sorted := failures.mergeSort fun left right => left.column ≤ right.column
        some (.ended session.stores (.error (.columns sorted)))
  else none

def ofPath (codec : Codec) (options : PackOptions) (stores : Stores) (path : String)
    (relation : Relation) (ids : List Nat) : Except Error Job := do
  let ranges ← plan options relation
  let place ← (stores.resolve path).mapError .path
  return { codec, options, relation, place, ranges, ids }

end Job

def Session.remaining (session : Session) : Nat :=
  total (session.tasks.map Task.remaining) + session.unjoined.length + 1

namespace Stage

def start (codec : Codec) (options : PackOptions) (stores : Stores) (path : String)
    (relation : Relation) (ids : List Nat) : Stage :=
  match Job.ofPath codec options stores path relation ids with
  | .error error => .ended stores (.error (.single error))
  | .ok job => .working job (job.start stores)

def stores : Stage → Stores
  | .working _ session => session.stores
  | .ended stores _ => stores

def remaining : Stage → Nat
  | .working _ session => session.remaining
  | .ended _ _ => 0

def move? (move : Move) : Stage → Option Stage
  | .ended _ _ => none
  | .working job session =>
      match move with
      | .advance index => (job.advance? index session).map (.working job)
      | .join index => (job.join? index session).map (.working job)
      | .conclude => job.conclude? session

def after? (stage : Stage) : List Move → Option Stage
  | [] => some stage
  | move :: rest => (stage.move? move).bind fun next => next.after? rest

theorem after?_eq (stage : Stage) (moves : List Move) :
    stage.after? moves = Moves.after? move? stage moves := by
  induction moves generalizing stage with
  | nil => rfl
  | cons move rest ih => simp only [after?, Moves.after?, ih]

end Stage

section Steps

variable {job : Job} {column : Column} {task next : Task} {write? : Option (Location × Bytes)}

theorem Progress.writes_add (directory : Location) (progress : Progress) (size : Nat)
    (chunk : Bytes) :
    (progress.add directory size chunk).writes =
      (progress.closing? directory chunk.length).toList ++ progress.writes := by
  by_cases room : progress.part.canAdd chunk.length = true
  · simp only [Progress.add, Progress.closing?, room, if_true, Option.toList_none, List.nil_append]
  · simp only [Progress.add, Progress.closing?, room, Bool.false_eq_true, if_false,
      Option.toList_some]
    rfl

theorem Task.writes_step? (stepped : task.step? job column = some (write?, next)) :
    next.writes = task.writes ++ write?.toList := by
  cases task with
  | ended run => contradiction
  | packing chunkIndex ranges progress =>
      cases ranges with
      | nil =>
          rw [Task.step?] at stepped
          split at stepped
          · cases stepped
            simp only [Task.writes, Option.toList_none, List.append_nil]
          · cases stepped
            simp only [Task.writes, Progress.flush, List.reverse_cons, Option.toList_some]
            rfl
      | cons range rest =>
          rw [Task.step?] at stepped
          split at stepped
          · cases stepped
            simp only [Task.writes, Option.toList_none, List.append_nil]
          · cases stepped
            simp only [Task.writes, Progress.writes_add, List.reverse_append]
            cases progress.closing? job.place.location _ <;> rfl

/-- A task packs what the column alone would. -/
theorem Task.run_step? (stepped : task.step? job column = some (write?, next)) :
    next.run job column = task.run job column := by
  cases task with
  | ended run => contradiction
  | packing chunkIndex ranges progress =>
      cases ranges with
      | nil =>
          rw [Task.step?] at stepped
          rw [Task.run, packRanges]
          split at stepped
          · rename_i empty
            cases stepped
            simp only [Task.run, empty, if_true]
          · rename_i filled
            cases stepped
            simp only [Task.run, filled, Bool.false_eq_true, if_false]
      | cons range rest =>
          cases packed : packRange job.codec job.options.verify job.relation column
              progress.stats.column chunkIndex range with
          | error error =>
              simp only [Task.step?, packed] at stepped
              cases stepped
              simp only [Task.run, packRanges, packed]
          | ok entry =>
              simp only [Task.step?, packed] at stepped
              cases stepped
              simp only [Task.run, packRanges, packed]

theorem Task.remaining_step? (stepped : task.step? job column = some (write?, next)) :
    next.remaining < task.remaining := by
  cases task with
  | ended run => contradiction
  | packing chunkIndex ranges progress =>
      cases ranges with
      | nil =>
          rw [Task.step?] at stepped
          split at stepped <;> cases stepped <;> simp [Task.remaining]
      | cons range rest =>
          rw [Task.step?] at stepped
          split at stepped <;> cases stepped <;> simp [Task.remaining]

variable (job column) in
theorem Task.exists_step? (chunkIndex : Nat) (ranges : List RowRange) (progress : Progress) :
    ∃ write? next, (Task.packing chunkIndex ranges progress).step? job column =
      some (write?, next) := by
  cases ranges with
  | nil =>
      rw [Task.step?]
      split
      · exact ⟨_, _, rfl⟩
      · exact ⟨_, _, rfl⟩
  | cons range rest =>
      rw [Task.step?]
      split
      · exact ⟨_, _, rfl⟩
      · exact ⟨_, _, rfl⟩

theorem Task.run_start (job : Job) (index : Nat) (column : Column) :
    (Task.start job index column).run job column =
      Pack.column job.codec job.options job.relation job.place.location job.ranges index column := by
  rw [Task.start, Pack.column]
  split
  · rfl
  · rfl

theorem Task.writes_start (job : Job) (index : Nat) (column : Column) :
    (Task.start job index column).writes = [] := by
  rw [Task.start]
  split
  · rfl
  · rfl

theorem writes_packRanges {codec : Codec} {verify : Bool} {relation : Relation} {column : Column}
    {directory : Location} {chunkIndex : Nat} {ranges : List RowRange} {progress : Progress} :
    progress.writes.reverse <+:
      (packRanges codec verify relation column directory chunkIndex ranges progress).writes := by
  induction ranges generalizing chunkIndex progress with
  | nil =>
      rw [packRanges]
      split
      · exact List.prefix_rfl
      · simp only [Progress.flush, List.reverse_cons]
        exact List.prefix_append ..
  | cons range rest ih =>
      rw [packRanges]
      split
      · exact List.prefix_rfl
      · refine List.IsPrefix.trans ?_ ih
        rw [Progress.writes_add, List.reverse_append]
        exact List.prefix_append ..

theorem Task.writes_run (job : Job) (column : Column) (task : Task) :
    task.writes <+: (task.run job column).writes := by
  cases task with
  | packing chunkIndex ranges progress => exact writes_packRanges
  | ended run => exact List.prefix_rfl

end Steps

end Columnar.Pack
