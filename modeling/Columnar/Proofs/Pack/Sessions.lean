import Columnar.Proofs.Pack.InMemory

namespace Columnar.Pack

/-!
Sessions: what moves keep of a packing under way.

Every task is to end as its column's own packing does, and the store holds what all of them have
written so far, in some order.  No two parts have one place, so when all tasks are joined the order
no longer shows.
-/

section Moves

variable {job : Job} {session later : Session} {index : Nat}

/-- The memory store refuses nothing, so a task that advances takes its step. -/
theorem Job.advance?_memory (memory : job.place.store = .memory)
    (moved : job.advance? index session = some later) :
    ∃ task column write? next, session.tasks[index]? = some task ∧
      job.relation.columns[index]? = some column ∧
      task.step? job column = some (write?, next) ∧
      later = { session with
        stores := session.stores.putAll job.place.store write?.toList
        tasks := session.tasks.set index next } := by
  simp only [Job.advance?, bind, Option.bind_eq_some_iff] at moved
  obtain ⟨task, here, column, found, ⟨write?, next⟩, stepped, moved⟩ := moved
  refine ⟨task, column, write?, next, here, found, stepped, ?_⟩
  cases write? with
  | none =>
      cases moved
      rfl
  | some write =>
      simp only [memory, Stores.write_memory] at moved
      cases moved
      rw [memory]
      rfl

theorem Job.join?_inv (moved : job.join? index session = some later) :
    ∃ run id, index ∈ session.unjoined ∧ session.tasks[index]? = some (.ended run) ∧
      job.ids[index]? = some id ∧
      later = job.collect id run { session with unjoined := session.unjoined.erase index } := by
  unfold Job.join? at moved
  split at moved
  · rename_i waiting
    split at moved
    · rename_i run id here named
      cases moved
      exact ⟨run, id, waiting, here, named, rfl⟩
    · contradiction
  · contradiction

theorem Job.collect_frame (job : Job) (id : Nat) (run : ColumnRun) (session : Session) :
    (job.collect id run session).stores = session.stores ∧
      (job.collect id run session).tasks = session.tasks ∧
      (job.collect id run session).unjoined = session.unjoined := by
  unfold Job.collect
  split
  · split
    · exact ⟨rfl, rfl, rfl⟩
    · exact ⟨rfl, rfl, rfl⟩
  · exact ⟨rfl, rfl, rfl⟩

theorem Job.remaining_advance? (memory : job.place.store = .memory)
    (moved : job.advance? index session = some later) : later.remaining < session.remaining := by
  obtain ⟨task, column, write?, next, here, -, stepped, rfl⟩ := job.advance?_memory memory moved
  have fewer := total_map_set_lt here (Task.remaining_step? stepped)
  simp only [Session.remaining]
  omega

theorem Job.remaining_join? (moved : job.join? index session = some later) :
    later.remaining < session.remaining := by
  obtain ⟨run, id, waiting, -, -, rfl⟩ := job.join?_inv moved
  obtain ⟨-, tasks, unjoined⟩ :=
    job.collect_frame id run { session with unjoined := session.unjoined.erase index }
  have shorter := List.length_erase_of_mem waiting
  have some := List.length_pos_of_mem waiting
  rw [Session.remaining, tasks, unjoined, Session.remaining]
  dsimp only
  omega

theorem Job.conclude?_ends {next : Stage} (concluded : job.conclude? session = some next) :
    ∃ stores result, next = .ended stores result := by
  unfold Job.conclude? at concluded
  split at concluded
  · split at concluded
    · dsimp only at concluded
      split at concluded
      · cases concluded
        exact ⟨_, _, rfl⟩
      · cases concluded
        exact ⟨_, _, rfl⟩
    · cases concluded
      exact ⟨_, _, rfl⟩
  · contradiction

/-- Every move leaves less to do. -/
theorem Stage.remaining_move? {move : Move} {next : Stage} (memory : job.place.store = .memory)
    (moved : (Stage.working job session).move? move = some next) :
    next.remaining < (Stage.working job session).remaining := by
  cases move with
  | advance index =>
      obtain ⟨later, advanced, rfl⟩ := Option.map_eq_some_iff.mp moved
      exact job.remaining_advance? memory advanced
  | join index =>
      obtain ⟨later, joined, rfl⟩ := Option.map_eq_some_iff.mp moved
      exact job.remaining_join? joined
  | conclude =>
      obtain ⟨stores, result, rfl⟩ := job.conclude?_ends moved
      exact Nat.succ_pos _

end Moves

def Job.runs (job : Job) : List ColumnRun :=
  columns job.codec job.options job.relation job.place.location job.ranges

def Job.parts (job : Job) : List (Location × Bytes) :=
  partsOf job.codec job.options job.relation job.place.location job.ranges

/-- A session on its way, from the stores before it: each task is to end as its column's packing
does, the writes of all are in the store, and what the joined ones ended with is collected. -/
structure Session.Tracks (job : Job) (before : Stores) (session : Session) : Prop where
  tasked : session.tasks.length = job.relation.columns.length
  runs : ∀ index task column, session.tasks[index]? = some task →
    job.relation.columns[index]? = some column →
    task.run job column =
      Pack.column job.codec job.options job.relation job.place.location job.ranges index column
  joined : ∀ index task, session.tasks[index]? = some task → index ∉ session.unjoined →
    ∃ run, task = .ended run
  written : ∃ log, session.stores = before.putAll job.place.store log ∧
    ∀ write, write ∈ log ↔ ∃ task ∈ session.tasks, write ∈ task.writes
  collected : session.Collected job.runs

theorem Job.length_runs (job : Job) : job.runs.length = job.relation.columns.length := by
  rw [Job.runs, columns, List.length_map, List.length_zipIdx]

theorem Job.getElem?_runs (job : Job) (index : Nat) :
    job.runs[index]? = job.relation.columns[index]?.map
      (Pack.column job.codec job.options job.relation job.place.location job.ranges index) :=
  getElem?_columns ..

/-- After a step of one task the writes of all are those before and its own. -/
theorem exists_mem_writes_set {tasks : List Task} {index : Nat} {task next : Task}
    {more : List (Location × Bytes)} (here : tasks[index]? = some task)
    (grown : next.writes = task.writes ++ more) (write : Location × Bytes) :
    (∃ other ∈ tasks.set index next, write ∈ other.writes) ↔
      (∃ other ∈ tasks, write ∈ other.writes) ∨ write ∈ more := by
  induction tasks generalizing index with
  | nil => contradiction
  | cons first rest ih =>
      cases index with
      | zero =>
          cases here
          simp only [List.set_cons_zero, List.exists_mem_cons_iff, grown, List.mem_append]
          rw [or_right_comm]
      | succ index =>
          simp only [List.set_cons_succ, List.exists_mem_cons_iff, ih here, or_assoc]

namespace Session.Tracks

variable {job : Job} {before : Stores} {session later : Session} {index : Nat}

theorem start (job : Job) (before : Stores) : (job.start before).Tracks job before := by
  have tasks (index : Nat) : (job.start before).tasks[index]? =
      job.relation.columns[index]?.map (Task.start job index) := by
    rw [Job.start, List.getElem?_map, List.getElem?_zipIdx, Option.map_map, Nat.zero_add]
    rfl
  refine ⟨?_, ?_, ?_, ⟨[], rfl, ?_⟩, .start before job.length_runs⟩
  · rw [Job.start, List.length_map, List.length_zipIdx]
  · intro index task column here found
    rw [tasks, found] at here
    cases here
    exact Task.run_start ..
  · intro index task here outside
    rw [tasks] at here
    obtain ⟨column, found, rfl⟩ := Option.map_eq_some_iff.mp here
    have inside := (List.getElem?_eq_some_iff.mp found).1
    exact (outside (List.mem_range.mpr inside)).elim
  · intro write
    constructor
    · intro member
      contradiction
    · rintro ⟨task, member, inside⟩
      obtain ⟨index, here⟩ := List.mem_iff_getElem?.mp member
      rw [tasks] at here
      obtain ⟨column, found, rfl⟩ := Option.map_eq_some_iff.mp here
      rw [Task.writes_start] at inside
      exact inside

theorem advance (tracks : session.Tracks job before) (memory : job.place.store = .memory)
    (moved : job.advance? index session = some later) : later.Tracks job before := by
  obtain ⟨task, column, write?, next, here, found, stepped, rfl⟩ :=
    job.advance?_memory memory moved
  obtain ⟨log, stores, logged⟩ := tracks.written
  refine ⟨?_, ?_, ?_, ⟨log ++ write?.toList, ?_, ?_⟩, ?_⟩
  · exact (List.length_set ..).trans tracks.tasked
  · intro other otherTask otherColumn there otherFound
    obtain ⟨rfl, rfl⟩ | there := eq_or_of_getElem?_set there
    · rw [found] at otherFound
      cases otherFound
      exact (Task.run_step? stepped).trans (tracks.runs _ task column here found)
    · exact tracks.runs other otherTask otherColumn there otherFound
  · intro other otherTask there outside
    obtain ⟨rfl, rfl⟩ | there := eq_or_of_getElem?_set there
    · -- A task that is joined has ended, and one that has ended takes no step.
      obtain ⟨run, rfl⟩ := tracks.joined _ task here outside
      contradiction
    · exact tracks.joined other otherTask there outside
  · show session.stores.putAll job.place.store write?.toList = _
    rw [stores, Stores.putAll_append]
  · intro write
    rw [List.mem_append, logged]
    exact (exists_mem_writes_set here (Task.writes_step? stepped) write).symm
  · exact ⟨tracks.collected.waiting, tracks.collected.known, tracks.collected.slots,
      tracks.collected.filled, tracks.collected.listed, tracks.collected.once⟩

theorem exists_column (tracks : session.Tracks job before) {task : Task}
    (here : session.tasks[index]? = some task) :
    ∃ column, job.relation.columns[index]? = some column := by
  have inside := (List.getElem?_eq_some_iff.mp here).1
  rw [tracks.tasked] at inside
  exact ⟨_, List.getElem?_eq_getElem inside⟩

theorem exists_task (tracks : session.Tracks job before)
    (inside : index < job.relation.columns.length) :
    ∃ task, session.tasks[index]? = some task := by
  rw [← tracks.tasked] at inside
  exact ⟨_, List.getElem?_eq_getElem inside⟩

theorem run_ended (tracks : session.Tracks job before) {run : ColumnRun}
    (here : session.tasks[index]? = some (.ended run)) : job.runs[index]? = some run := by
  obtain ⟨column, found⟩ := tracks.exists_column here
  rw [job.getElem?_runs, found, Option.map_some, ← tracks.runs index _ _ here found, Task.run]

theorem join (tracks : session.Tracks job before) (distinct : job.ids.Nodup)
    (moved : job.join? index session = some later) : later.Tracks job before := by
  obtain ⟨run, id, waiting, here, named, rfl⟩ := job.join?_inv moved
  have collected := tracks.collected.join distinct waiting named (tracks.run_ended here)
  obtain ⟨stores, tasks, unjoined⟩ :=
    job.collect_frame id run { session with unjoined := session.unjoined.erase index }
  refine ⟨?_, ?_, ?_, ?_, collected⟩
  · rw [tasks]
    exact tracks.tasked
  · rw [tasks]
    exact tracks.runs
  · intro other task there outside
    rw [tasks] at there
    rw [unjoined] at outside
    by_cases same : other = index
    · subst same
      change session.tasks[other]? = some task at there
      rw [here] at there
      cases there
      exact ⟨run, rfl⟩
    · exact tracks.joined other task there fun stays =>
        outside ((List.mem_erase_of_ne same).mpr stays)
  · rw [stores, tasks]
    exact tracks.written

/-- Nothing is written that packing the columns one after another would not write. -/
theorem mem_parts (tracks : session.Tracks job before) {write : Location × Bytes}
    (written : ∃ task ∈ session.tasks, write ∈ task.writes) : write ∈ job.parts := by
  obtain ⟨task, member, inside⟩ := written
  obtain ⟨index, here⟩ := List.mem_iff_getElem?.mp member
  obtain ⟨column, found⟩ := tracks.exists_column here
  refine List.mem_flatMap.mpr ⟨_, mem_columns_of_getElem? found, ?_⟩
  rw [← tracks.runs index task _ here found]
  exact (task.writes_run job column).subset inside

/-- When all tasks are joined, all parts are in the store, and no other object has changed. -/
theorem agrees (tracks : session.Tracks job before) (memory : job.place.store = .memory)
    (all : session.unjoined = []) :
    session.stores.Agrees (before.putAll job.place.store job.parts) := by
  obtain ⟨log, stores, logged⟩ := tracks.written
  have inside (write : Location × Bytes) (member : write ∈ log) : write ∈ job.parts :=
    tracks.mem_parts ((logged write).mp member)
  rw [stores, memory]
  apply Stores.agrees_putAll
  · intro write member
    obtain ⟨index, column, groups, part, group, -, -, -, rfl⟩ :=
      exists_of_mem_partsOf (inside write member)
    exact ⟨_, rfl⟩
  · intro write member other otherMember same
    exact congrArg Prod.snd
      (eq_of_mem_partsOf (inside write member) (inside other otherMember) same)
  · intro write
    refine ⟨inside write, fun member => ?_⟩
    obtain ⟨run, among, written⟩ := List.mem_flatMap.mp member
    obtain ⟨index, column, found, rfl⟩ := mem_columns among
    obtain ⟨task, here⟩ := tracks.exists_task (List.getElem?_eq_some_iff.mp found).1
    obtain ⟨run, rfl⟩ := tracks.joined index task here (by rw [all]; exact List.not_mem_nil)
    refine (logged write).mpr ⟨_, List.mem_of_getElem? here, ?_⟩
    rw [← tracks.runs index _ column here found] at written
    exact written

/-- A session that has not ended can go on. -/
theorem exists_move (tracks : session.Tracks job before)
    (named : job.ids.length = job.relation.columns.length) :
    ∃ move next, (Stage.working job session).move? move = some next := by
  cases waiting : session.unjoined with
  | nil =>
      refine ⟨.conclude, ?_⟩
      simp only [Stage.move?, Job.conclude?, waiting, if_true]
      split
      · split
        · exact ⟨_, rfl⟩
        · exact ⟨_, rfl⟩
      · exact ⟨_, rfl⟩
  | cons index rest =>
      have member : index ∈ session.unjoined := waiting ▸ List.mem_cons_self
      have inside : index < job.relation.columns.length :=
        job.length_runs ▸ tracks.collected.known index member
      obtain ⟨task, here⟩ := tracks.exists_task inside
      cases task with
      | ended run =>
          have id : job.ids[index]? = some (job.ids.get ⟨index, named ▸ inside⟩) :=
            List.getElem?_eq_getElem _
          refine ⟨.join index, ?_⟩
          simp only [Stage.move?, Job.join?, member, if_true, here, id, Option.map_some]
          exact ⟨_, rfl⟩
      | packing chunkIndex ranges progress =>
          obtain ⟨column, found⟩ := tracks.exists_column here
          obtain ⟨write?, next, stepped⟩ := Task.exists_step? job column chunkIndex ranges progress
          refine ⟨.advance index, ?_⟩
          simp only [Stage.move?, Job.advance?, here, found, stepped, bind, Option.bind_some]
          cases write? with
          | none => exact ⟨_, rfl⟩
          | some write =>
              dsimp only
              split
              · exact ⟨_, rfl⟩
              · exact ⟨_, rfl⟩

end Session.Tracks

end Columnar.Pack
