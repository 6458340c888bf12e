import Columnar.Proofs.Read.Joins

namespace Columnar.Read

/-!
Sessions: what moves keep of columns being written.

Every task is on the way to the text that its column had before all of them, and the store holds the
files of those that have come to one.  Repeated requests write one file twice, with the same bytes,
and leave one entry among the rows, so neither the order of the steps nor that of the joins shows at
the end.
-/

section Tasks

variable {job : Job} {before stores : Stores} {source target : Location} {path : String}
  {column : Nat} {log : List (Location × Bytes)} {task next : Task}

/-- Where a task stands on the way to the text of its column. -/
def Task.Stands (before : Stores) (path : String) (column : Nat) : Task → Prop
  | .opening => True
  | .reading found parts => find before path column = .ok found ∧
      parts.length ≤ found.partCount ∧
      ColumnReader.openParts .standard before found.directory column parts.length 0 = .ok parts
  | .writing rows text => Read.text before path column = .ok (rows, text)
  | .ended result => result = (Read.text before path column).map (·.1)

/-- The file that a task has written. -/
def Task.file? (before : Stores) (path : String) (target : Location) (column : Nat) :
    Task → Option (Location × Bytes)
  | .ended (.ok _) =>
      (Read.text before path column).toOption.map fun read => textFile target column read.2
  | _ => none

theorem TextsOnly.find (texts : TextsOnly log) {output : String}
    (located : Located path output source target) (column : Nat) :
    Read.find (before.putAll .memory log) path column = Read.find before path column := by
  simp only [Read.find, located.source, mapError_ok, bind, Except.bind, texts.loadCatalog]

theorem directory_of_find {found : Found} {output : String}
    (located : Located path output source target)
    (known : find stores path column = .ok found) : found.directory = ⟨.memory, source⟩ := by
  rw [find, located.source, mapError_ok] at known
  obtain ⟨place, same, known⟩ := exists_of_bind_ok known
  cases same
  obtain ⟨catalog, -, known⟩ := exists_of_bind_ok known
  obtain ⟨typed, -, known⟩ := exists_of_bind_ok known
  cases known
  rfl

/-- In front of its file a task changes no store, and a step leads on to the same text. -/
theorem Task.Stands.read_step (stands : task.Stands before job.path column)
    (unwritten : ∀ rows text, task ≠ .writing rows text)
    (stepped : task.step? job column before = some (stores, next)) :
    stores = before ∧ next.Stands before job.path column ∧ next.remaining < task.remaining ∧
      ∀ rows, next ≠ .ended (.ok rows) := by
  cases task with
  | opening =>
      rw [Task.step?] at stepped
      cases known : find before job.path column with
      | error error =>
          rw [known] at stepped
          cases stepped
          refine ⟨rfl, ?_, Nat.succ_pos _, by simp⟩
          rw [Task.Stands, text_of_find_error known]
          rfl
      | ok found =>
          rw [known] at stepped
          cases stepped
          have bound := found.entry.partCount.toNat_lt
          refine ⟨rfl, ⟨known, Nat.zero_le _, rfl⟩, ?_, by simp⟩
          simp only [Task.remaining, Found.partCount, List.length_nil, maxWord]
          omega
  | reading found parts =>
      obtain ⟨known, bound, opened⟩ := stands
      rw [Task.step?] at stepped
      split at stepped
      · rename_i more
        split at stepped
        · rename_i error failed
          cases stepped
          refine ⟨rfl, ?_, Nat.succ_pos _, by simp⟩
          rw [Task.Stands, text_of_part_error known opened more failed]
          rfl
        · rename_i part here
          cases stepped
          have length : (parts ++ [part]).length = parts.length + 1 := by simp
          refine ⟨rfl, ⟨known, length ▸ more, openParts_push opened here⟩, ?_, by simp⟩
          simp only [Task.remaining, length]
          omega
      · rename_i all
        have whole : parts.length = found.partCount := by omega
        have reading := text_of_parts known (whole ▸ opened)
        split at stepped
        · rename_i error failed
          cases stepped
          refine ⟨rfl, ?_, Nat.succ_pos _, by simp⟩
          rw [Task.Stands, reading, failed]
          rfl
        · rename_i rows text read
          cases stepped
          refine ⟨rfl, reading.trans read, ?_, by simp⟩
          simp only [Task.remaining]
          omega
  | writing rows text => exact (unwritten rows text rfl).elim
  | ended result => contradiction

/-- Texts that are written meanwhile do not show in front of the file. -/
theorem TextsOnly.read_step (texts : TextsOnly log)
    (located : Located job.path job.output source target)
    (stands : task.Stands before job.path column)
    (unwritten : ∀ rows text, task ≠ .writing rows text)
    (stepped : task.step? job column (before.putAll .memory log) = some (stores, next)) :
    stores = before.putAll .memory log ∧ task.step? job column before = some (before, next) := by
  cases task with
  | opening =>
      rw [Task.step?, texts.find located] at stepped
      rw [Task.step?]
      cases known : Read.find before job.path column with
      | error error =>
          rw [known] at stepped
          cases stepped
          exact ⟨rfl, rfl⟩
      | ok found =>
          rw [known] at stepped
          cases stepped
          exact ⟨rfl, rfl⟩
  | reading found parts =>
      have place := directory_of_find located stands.1
      rw [Task.step?, place, texts.ofPlace, ← place] at stepped
      rw [Task.step?]
      split at stepped
      · rename_i more
        rw [if_pos more]
        split at stepped
        · cases stepped
          exact ⟨rfl, rfl⟩
        · cases stepped
          exact ⟨rfl, rfl⟩
      · rename_i all
        rw [if_neg all]
        split at stepped
        · cases stepped
          exact ⟨rfl, rfl⟩
        · cases stepped
          exact ⟨rfl, rfl⟩
  | writing rows text => exact (unwritten rows text rfl).elim
  | ended result => contradiction

/-- A step leads on to the same text, and writes nothing but the file of that. -/
theorem Task.Stands.step? (located : Located job.path job.output source target)
    (texts : TextsOnly log) (stands : task.Stands before job.path column)
    (stepped : task.step? job column (before.putAll .memory log) = some (stores, next)) :
    next.Stands before job.path column ∧ next.remaining < task.remaining ∧
      stores = before.putAll .memory
        (log ++ (next.file? before job.path target column).toList) := by
  rcases Classical.em (∃ rows text, task = .writing rows text) with writing | reading
  case inr =>
    have unwritten : ∀ rows text, task ≠ .writing rows text :=
      fun rows text same => reading ⟨rows, text, same⟩
    obtain ⟨rfl, step⟩ := texts.read_step located stands unwritten stepped
    obtain ⟨-, later, fewer, unended⟩ := stands.read_step unwritten step
    have none : next.file? before job.path target column = none := by
      cases next with
      | ended result =>
          cases result with
          | error error => rfl
          | ok rows => exact (unended rows rfl).elim
      | opening => rfl
      | reading found parts => rfl
      | writing rows text => rfl
    rw [none, Option.toList_none, List.append_nil]
    exact ⟨later, fewer, rfl⟩
  case inl =>
    obtain ⟨rows, text, rfl⟩ := writing
    have read : Read.text before job.path column = .ok (rows, text) := stands
    simp only [Task.step?, writePath, located.target, mapError_ok, bind, Except.bind,
      Stores.write_memory] at stepped
    cases stepped
    refine ⟨?_, Nat.succ_pos _, ?_⟩
    · rw [Task.Stands, read]
      rfl
    · rw [Task.file?, read, Stores.putAll_append]
      rfl

theorem Task.file?_eq_some {write : Location × Bytes}
    (file : task.file? before path target column = some write) :
    ∃ rows content, Read.text before path column = .ok (rows, content) ∧
      write = textFile target column content := by
  unfold Task.file? at file
  split at file
  · cases read : Read.text before path column with
    | error error =>
        rw [read] at file
        contradiction
    | ok done =>
        rw [read] at file
        cases file
        exact ⟨done.1, done.2, rfl, rfl⟩
  · contradiction

theorem Task.file?_of_step? {before other : Stores} {path : String} {target : Location}
    (stepped : task.step? job column other = some (stores, next)) :
    task.file? before path target column = none := by
  cases task with
  | ended result => contradiction
  | opening => rfl
  | reading found parts => rfl
  | writing rows text => rfl

variable (job column stores) in
theorem Task.exists_step? (task : Task) :
    (∃ result, task = .ended result) ∨
      ∃ after next, task.step? job column stores = some (after, next) := by
  cases task with
  | ended result => exact .inl ⟨result, rfl⟩
  | opening =>
      right
      rw [Task.step?]
      split
      · exact ⟨_, _, rfl⟩
      · exact ⟨_, _, rfl⟩
  | reading found parts =>
      right
      rw [Task.step?]
      split
      · split
        · exact ⟨_, _, rfl⟩
        · exact ⟨_, _, rfl⟩
      · split
        · exact ⟨_, _, rfl⟩
        · exact ⟨_, _, rfl⟩
  | writing rows text =>
      right
      rw [Task.step?]
      split
      · exact ⟨_, _, rfl⟩
      · exact ⟨_, _, rfl⟩

end Tasks

section Moves

variable {job : Job} {session later : Session} {index : Nat}

theorem Job.advance?_inv (moved : job.advance? index session = some later) :
    ∃ task column stores next, session.tasks[index]? = some task ∧
      job.requests[index]? = some column ∧
      task.step? job column session.stores = some (stores, next) ∧
      later = { session with stores, tasks := session.tasks.set index next } := by
  simp only [Job.advance?, bind, Option.bind_eq_some_iff] at moved
  obtain ⟨task, here, column, requested, ⟨stores, next⟩, stepped, moved⟩ := moved
  cases moved
  exact ⟨task, column, stores, next, here, requested, stepped, rfl⟩

theorem Job.join?_inv (moved : job.join? index session = some later) :
    ∃ result id, index ∈ session.unjoined ∧ session.tasks[index]? = some (.ended result) ∧
      job.ids[index]? = some id ∧
      later = job.collect id result { session with unjoined := session.unjoined.erase index } := by
  unfold Job.join? at moved
  split at moved
  · rename_i waiting
    split at moved
    · rename_i result id here named
      cases moved
      exact ⟨result, id, waiting, here, named, rfl⟩
    · contradiction
  · contradiction

theorem Job.collect_frame (job : Job) (id : Nat) (result : Except Error Nat) (session : Session) :
    (job.collect id result session).stores = session.stores ∧
      (job.collect id result session).tasks = session.tasks ∧
      (job.collect id result session).unjoined = session.unjoined := by
  unfold Job.collect
  split
  · split
    · exact ⟨rfl, rfl, rfl⟩
    · exact ⟨rfl, rfl, rfl⟩
  · exact ⟨rfl, rfl, rfl⟩

theorem Job.remaining_join? (moved : job.join? index session = some later) :
    later.remaining < session.remaining := by
  obtain ⟨result, id, waiting, -, -, rfl⟩ := job.join?_inv moved
  obtain ⟨-, tasks, unjoined⟩ :=
    job.collect_frame id result { session with unjoined := session.unjoined.erase index }
  have shorter := List.length_erase_of_mem waiting
  have some := List.length_pos_of_mem waiting
  rw [Session.remaining, tasks, unjoined, Session.remaining]
  dsimp only
  omega

end Moves

/-- A file that one of the tasks has written. -/
def Session.Wrote (job : Job) (before : Stores) (target : Location) (session : Session)
    (write : Location × Bytes) : Prop :=
  ∃ (index : Nat) (task : Task) (column : Nat), session.tasks[index]? = some task ∧
    job.requests[index]? = some column ∧ task.file? before job.path target column = some write

/-- A session on its way, from the stores before it: each task stands on the way to the text of its
column, what they wrote is in the store, and what the joined ones ended with is collected. -/
structure Session.Tracks (job : Job) (before : Stores) (target : Location) (session : Session) :
    Prop where
  tasked : session.tasks.length = job.requests.length
  stands : ∀ (index : Nat) (task : Task) (column : Nat), session.tasks[index]? = some task →
    job.requests[index]? = some column → task.Stands before job.path column
  joined : ∀ (index : Nat) (task : Task),
    session.tasks[index]? = some task → index ∉ session.unjoined →
    ∃ result, task = .ended result
  written : ∃ log, session.stores = before.putAll .memory log ∧
    ∀ write, write ∈ log ↔ session.Wrote job before target write
  collected : session.Collected job before

namespace Session

variable {job : Job} {before : Stores} {source target : Location} {session later : Session}
  {index column : Nat}

/-- A task that takes a step had written nothing, so the files are those of before and its own. -/
theorem wrote_advance {stores : Stores} {task next : Task} {write : Location × Bytes}
    (here : session.tasks[index]? = some task) (requested : job.requests[index]? = some column)
    (none : task.file? before job.path target column = none) :
    Wrote job before target { session with stores, tasks := session.tasks.set index next } write ↔
      session.Wrote job before target write ∨
        next.file? before job.path target column = some write := by
  have inside := (List.getElem?_eq_some_iff.mp here).1
  constructor
  · rintro ⟨other, otherTask, place, there, found, file⟩
    obtain ⟨rfl, rfl⟩ | there := eq_or_of_getElem?_set there
    · rw [requested] at found
      cases found
      exact .inr file
    · exact .inl ⟨other, otherTask, place, there, found, file⟩
  · rintro (⟨other, otherTask, place, there, found, file⟩ | file)
    · refine ⟨other, otherTask, place, ?_, found, file⟩
      have differs : index ≠ other := by
        rintro rfl
        rw [here] at there
        rw [requested] at found
        cases there
        cases found
        rw [none] at file
        contradiction
      exact (List.getElem?_set_ne differs).trans there
    · exact ⟨index, next, column, List.getElem?_set_self inside, requested, file⟩

namespace Tracks

theorem start (job : Job) (before : Stores) (target : Location) :
    (job.start before).Tracks job before target := by
  have opening (index : Nat) (task : Task) (here : (job.start before).tasks[index]? = some task) :
      task = .opening := List.eq_of_mem_replicate (List.mem_of_getElem? here)
  refine ⟨List.length_replicate, ?_, ?_, ⟨[], rfl, ?_⟩, .start job before⟩
  · intro index task column here _
    rw [opening index task here]
    trivial
  · intro index task here outside
    have inside := (List.getElem?_eq_some_iff.mp here).1
    rw [Job.start, List.length_replicate] at inside
    exact (outside (List.mem_range.mpr inside)).elim
  · intro write
    constructor
    · intro member
      contradiction
    · rintro ⟨index, task, column, here, -, file⟩
      rw [opening index task here] at file
      contradiction

theorem exists_column (tracks : session.Tracks job before target) {task : Task}
    (here : session.tasks[index]? = some task) :
    ∃ column, job.requests[index]? = some column := by
  have inside := (List.getElem?_eq_some_iff.mp here).1
  rw [tracks.tasked] at inside
  exact ⟨_, List.getElem?_eq_getElem inside⟩

theorem exists_task (tracks : session.Tracks job before target)
    (inside : index < job.requests.length) : ∃ task, session.tasks[index]? = some task := by
  rw [← tracks.tasked] at inside
  exact ⟨_, List.getElem?_eq_getElem inside⟩

/-- Only texts of columns are in the store that were not there before. -/
theorem exists_log (tracks : session.Tracks job before target) :
    ∃ log, session.stores = before.putAll .memory log ∧ TextsOnly log ∧
      ∀ write, write ∈ log ↔ session.Wrote job before target write := by
  obtain ⟨log, stores, logged⟩ := tracks.written
  refine ⟨log, stores, fun write member => ?_, logged⟩
  obtain ⟨index, task, column, -, -, file⟩ := (logged write).mp member
  obtain ⟨rows, content, -, rfl⟩ := Task.file?_eq_some file
  exact ⟨target, column, rfl⟩

theorem advance (tracks : session.Tracks job before target)
    (located : Located job.path job.output source target)
    (moved : job.advance? index session = some later) :
    later.Tracks job before target ∧ later.remaining < session.remaining := by
  obtain ⟨task, column, stores, next, here, requested, stepped, rfl⟩ := job.advance?_inv moved
  obtain ⟨log, held, texts, logged⟩ := tracks.exists_log
  rw [held] at stepped
  obtain ⟨stands, fewer, rfl⟩ :=
    (tracks.stands index task column here requested).step? located texts stepped
  refine ⟨⟨?_, ?_, ?_, ⟨_, rfl, ?_⟩, ?_⟩, ?_⟩
  · exact (List.length_set ..).trans tracks.tasked
  · intro other otherTask place there found
    obtain ⟨rfl, rfl⟩ | there := eq_or_of_getElem?_set there
    · rw [requested] at found
      cases found
      exact stands
    · exact tracks.stands other otherTask place there found
  · intro other otherTask there outside
    obtain ⟨rfl, rfl⟩ | there := eq_or_of_getElem?_set there
    · -- A task that is joined has ended, and one that has ended takes no step.
      obtain ⟨result, rfl⟩ := tracks.joined _ task here outside
      contradiction
    · exact tracks.joined other otherTask there outside
  · intro write
    rw [List.mem_append, logged, Option.mem_toList,
      wrote_advance here requested (Task.file?_of_step? stepped)]
  · exact ⟨tracks.collected.known, tracks.collected.sound, tracks.collected.present,
      tracks.collected.failed⟩
  · have less := total_map_set_lt here fewer
    simp only [Session.remaining]
    omega

theorem join (tracks : session.Tracks job before target) (distinct : job.ids.Nodup)
    (moved : job.join? index session = some later) : later.Tracks job before target := by
  obtain ⟨result, id, waiting, here, named, rfl⟩ := job.join?_inv moved
  obtain ⟨column, requested⟩ := tracks.exists_column here
  have ended : result = (text before job.path column).map (·.1) :=
    tracks.stands index _ column here requested
  have collected := tracks.collected.join distinct waiting named requested
  rw [← ended] at collected
  obtain ⟨stores, tasks, unjoined⟩ :=
    job.collect_frame id result { session with unjoined := session.unjoined.erase index }
  refine ⟨?_, ?_, ?_, ?_, collected⟩
  · rw [tasks]
    exact tracks.tasked
  · rw [tasks]
    exact tracks.stands
  · intro other task there outside
    rw [tasks] at there
    rw [unjoined] at outside
    by_cases same : other = index
    · subst same
      change session.tasks[other]? = some task at there
      rw [here] at there
      cases there
      exact ⟨result, rfl⟩
    · exact tracks.joined other task there fun stays =>
        outside ((List.mem_erase_of_ne same).mpr stays)
  · rw [stores]
    simp only [Wrote, tasks]
    exact tracks.written

theorem wrote_iff (tracks : session.Tracks job before target) (all : session.unjoined = [])
    (write : Location × Bytes) :
    session.Wrote job before target write ↔
      write ∈ textFiles before job.path target job.requests := by
  rw [textFiles, List.mem_filterMap]
  constructor
  · rintro ⟨index, task, column, -, requested, file⟩
    obtain ⟨rows, content, read, rfl⟩ := Task.file?_eq_some file
    refine ⟨column, List.mem_of_getElem? requested, ?_⟩
    rw [read]
    rfl
  · rintro ⟨column, requested, file⟩
    obtain ⟨index, found⟩ := List.mem_iff_getElem?.mp requested
    obtain ⟨task, here⟩ := tracks.exists_task (List.getElem?_eq_some_iff.mp found).1
    obtain ⟨result, rfl⟩ := tracks.joined index task here (by rw [all]; exact List.not_mem_nil)
    have ended : result = (text before job.path column).map (·.1) :=
      tracks.stands index _ column here found
    refine ⟨index, _, column, here, found, ?_⟩
    cases read : text before job.path column with
    | error error =>
        rw [read] at file
        contradiction
    | ok done =>
        have succeeded : result = .ok done.1 := by
          rw [ended, read]
          rfl
        rw [succeeded, Task.file?]
        exact file

/-- When all tasks are joined, the files are in the store, and no other object has changed. -/
theorem agrees (tracks : session.Tracks job before target) (all : session.unjoined = []) :
    session.stores.Agrees
      (before.putAll .memory (textFiles before job.path target job.requests)) := by
  obtain ⟨log, stores, logged⟩ := tracks.written
  have files (write : Location × Bytes) (member : write ∈ log) : ∃ rows column content,
      text before job.path column = .ok (rows, content) ∧ write = textFile target column content := by
    obtain ⟨index, task, column, -, -, file⟩ := (logged write).mp member
    obtain ⟨rows, content, read, same⟩ := Task.file?_eq_some file
    exact ⟨rows, column, content, read, same⟩
  rw [stores]
  apply Stores.agrees_putAll
  · intro write member
    obtain ⟨rows, column, content, -, rfl⟩ := files write member
    exact ⟨_, rfl⟩
  · intro write member other otherMember same
    obtain ⟨rows, column, content, read, rfl⟩ := files write member
    obtain ⟨otherRows, otherColumn, otherContent, otherRead, rfl⟩ := files other otherMember
    cases StoredFile.child_injective same
    rw [read] at otherRead
    cases otherRead
    rfl
  · intro write
    rw [logged, tracks.wrote_iff all]

/-- A session that has not ended can go on. -/
theorem exists_move (tracks : session.Tracks job before target)
    (named : job.ids.length = job.requests.length) :
    ∃ move next, job.move? move (.working session) = some next := by
  cases waiting : session.unjoined with
  | nil =>
      refine ⟨.conclude, ?_⟩
      simp only [Job.move?, Job.conclude?, waiting, if_true]
      split
      · exact ⟨_, rfl⟩
      · exact ⟨_, rfl⟩
  | cons index rest =>
      have member : index ∈ session.unjoined := waiting ▸ List.mem_cons_self
      have inside := tracks.collected.known index member
      obtain ⟨task, here⟩ := tracks.exists_task inside
      obtain ⟨column, requested⟩ := tracks.exists_column here
      rcases Task.exists_step? job session.stores column task with
        ⟨result, rfl⟩ | ⟨stores, next, stepped⟩
      · have id : job.ids[index]? = some (job.ids.get ⟨index, named ▸ inside⟩) :=
          List.getElem?_eq_getElem _
        refine ⟨.join index, ?_⟩
        simp only [Job.move?, Job.join?, member, if_true, here, id, Option.map_some]
        exact ⟨_, rfl⟩
      · refine ⟨.advance index, ?_⟩
        simp only [Job.move?, Job.advance?, here, requested, stepped, bind, Option.bind_some]
        exact ⟨_, rfl⟩

end Tracks

end Session

end Columnar.Read
