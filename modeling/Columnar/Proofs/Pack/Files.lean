import Columnar.Proofs.Pack.Schedules

namespace Columnar.Pack

/-!
Files that a packing writes.

A part is named for its column and for its place among the parts of that column, so tasks never
write to one file, and none writes to a file again.  This is so in every store, also in one that
refuses some of the writes.
-/

/-- The stores behind writes of files of a directory, no two to one location, and none of a text. -/
def WroteOnce (before after : Stores) (place : Place) : Prop :=
  ∃ log, after = before.putAll place.store log ∧ (log.map Prod.fst).Nodup ∧
    ∀ write ∈ log, ∃ file : StoredFile, (∀ column, file ≠ .text column) ∧
      write.1 = place.location.child file.name

section Parts

variable {codec : Codec} {options : PackOptions} {relation : Relation} {directory : Location}
  {ranges : List RowRange} {index : Nat} {column : Column} {writes : List (Location × Bytes)}
  {write : Location × Bytes}

theorem nodup_partWrites (directory : Location) (index : Nat) (type : ColumnType)
    (groups : List (List Bytes)) : ((partWrites directory index type groups).map Prod.fst).Nodup := by
  have locations : (partWrites directory index type groups).map Prod.fst =
      (groups.zipIdx.map Prod.snd).map fun part =>
        directory.child (StoredFile.part index part).name := by
    rw [partWrites, List.map_map, List.map_map]
    rfl
  rw [locations, List.zipIdx_map_snd]
  refine List.Nodup.map (fun first second same => ?_) List.nodup_range'
  exact (StoredFile.part.inj (StoredFile.child_injective same)).2

theorem nodup_of_leading
    (leading : writes <+: (Pack.column codec options relation directory ranges index column).writes) :
    (writes.map Prod.fst).Nodup := by
  obtain ⟨groups, whole⟩ := column_writes codec options relation directory ranges index column
  rw [whole] at leading
  exact (nodup_partWrites directory index column.type groups).sublist (leading.map Prod.fst).sublist

theorem part_of_leading
    (leading : writes <+: (Pack.column codec options relation directory ranges index column).writes)
    (member : write ∈ writes) :
    ∃ part, write.1 = directory.child (StoredFile.part index part).name := by
  obtain ⟨groups, whole⟩ := column_writes codec options relation directory ranges index column
  rw [whole] at leading
  obtain ⟨part, group, -, rfl⟩ := mem_partWrites.mp (leading.subset member)
  exact ⟨part, rfl⟩

/-- The parts of a relation are written to locations of their own. -/
theorem nodup_partsOf (codec : Codec) (options : PackOptions) (relation : Relation)
    (directory : Location) (ranges : List RowRange) :
    ((partsOf codec options relation directory ranges).map Prod.fst).Nodup := by
  have each (index : Nat) (column : Column) :=
    @List.prefix_rfl _ (Pack.column codec options relation directory ranges index column).writes
  rw [partsOf, List.map_flatMap, List.nodup_flatMap]
  constructor
  · intro run member
    obtain ⟨index, column, -, rfl⟩ := mem_columns member
    exact nodup_of_leading (each index column)
  · rw [columns, List.pairwise_map]
    have indices : (relation.columns.zipIdx.map Prod.snd).Nodup := by
      rw [List.zipIdx_map_snd]
      exact List.nodup_range'
    refine List.Pairwise.imp ?_ (List.pairwise_map.mp indices)
    rintro ⟨first, firstIndex⟩ ⟨second, secondIndex⟩ differs location here there
    obtain ⟨write, member, rfl⟩ := List.mem_map.mp here
    obtain ⟨other, otherMember, same⟩ := List.mem_map.mp there
    obtain ⟨part, named⟩ := part_of_leading (each firstIndex first) member
    obtain ⟨otherPart, otherNamed⟩ := part_of_leading (each secondIndex second) otherMember
    rw [named, otherNamed] at same
    exact differs (StoredFile.part.inj (StoredFile.child_injective same)).1.symm

end Parts

section Steps

variable {job : Job} {before : Stores} {session later : Session} {index : Nat}

/-- A task that advances takes its step, or ends where it stood when the store refuses the write. -/
theorem Job.advance?_cases (moved : job.advance? index session = some later) :
    ∃ task column write? next, session.tasks[index]? = some task ∧
      job.relation.columns[index]? = some column ∧
      task.step? job column = some (write?, next) ∧
      (later = { session with
          stores := session.stores.putAll job.place.store write?.toList
          tasks := session.tasks.set index next } ∨
        ∃ error, later = { session with
          tasks := session.tasks.set index (.ended ⟨task.writes, .error error⟩) }) := by
  simp only [Job.advance?, bind, Option.bind_eq_some_iff] at moved
  obtain ⟨task, here, column, found, ⟨write?, next⟩, stepped, moved⟩ := moved
  refine ⟨task, column, write?, next, here, found, stepped, ?_⟩
  cases write? with
  | none =>
      cases moved
      exact .inl rfl
  | some write =>
      dsimp only at moved
      split at moved
      · rename_i stores written
        cases moved
        rw [Stores.eq_put_of_write written]
        exact .inl rfl
      · cases moved
        exact .inr ⟨_, rfl⟩

/-- A packing under way: each task has begun with what its column writes, and what the tasks have
written is in the store, each file once. -/
structure Session.Begun (job : Job) (before : Stores) (session : Session) : Prop where
  tasked : session.tasks.length = job.relation.columns.length
  leading : ∀ (index : Nat) (task : Task) (column : Column), session.tasks[index]? = some task →
    job.relation.columns[index]? = some column →
    (task.run job column).writes <+: (Pack.column job.codec job.options job.relation
      job.place.location job.ranges index column).writes
  written : ∃ log, session.stores = before.putAll job.place.store log ∧ (log.map Prod.fst).Nodup ∧
    ∀ write ∈ log, ∃ (index : Nat) (task : Task), session.tasks[index]? = some task ∧
      write ∈ task.writes

namespace Session.Begun

theorem start (job : Job) (before : Stores) : (job.start before).Begun job before := by
  refine ⟨?_, ?_, [], rfl, List.nodup_nil, by simp⟩
  · rw [Job.start, List.length_map, List.length_zipIdx]
  · intro index task column here found
    rw [Job.start, List.getElem?_map, List.getElem?_zipIdx, found] at here
    cases here
    rw [Nat.zero_add, Task.run_start]

theorem part_of_mem (begun : session.Begun job before) {task : Task} {write : Location × Bytes}
    (here : session.tasks[index]? = some task) (member : write ∈ task.writes) :
    ∃ part, write.1 = job.place.location.child (StoredFile.part index part).name := by
  have inside := (List.getElem?_eq_some_iff.mp here).1
  rw [begun.tasked] at inside
  have leading := begun.leading index task _ here (List.getElem?_eq_getElem inside)
  exact part_of_leading leading ((task.writes_run job _).subset member)

/-- A task that goes on writes parts that neither it nor another task has written. -/
theorem set (begun : session.Begun job before) {task next : Task} {column : Column}
    {more : List (Location × Bytes)} (here : session.tasks[index]? = some task)
    (found : job.relation.columns[index]? = some column)
    (leading : (next.run job column).writes <+: (Pack.column job.codec job.options job.relation
      job.place.location job.ranges index column).writes)
    (grown : next.writes = task.writes ++ more) :
    Begun job before { session with
      stores := session.stores.putAll job.place.store more
      tasks := session.tasks.set index next } := by
  have inside := (List.getElem?_eq_some_iff.mp here).1
  have own := (next.writes_run job column).trans leading
  rw [grown] at own
  have apart := nodup_of_leading own
  rw [List.map_append, List.nodup_append] at apart
  obtain ⟨log, stores, once, files⟩ := begun.written
  refine ⟨(List.length_set ..).trans begun.tasked, ?_, log ++ more, ?_, ?_, ?_⟩
  · intro other otherTask otherColumn there otherFound
    obtain ⟨rfl, rfl⟩ | there := eq_or_of_getElem?_set there
    · rw [found] at otherFound
      cases otherFound
      exact leading
    · exact begun.leading other otherTask otherColumn there otherFound
  · show session.stores.putAll job.place.store more = _
    rw [stores, Stores.putAll_append]
  · rw [List.map_append, List.nodup_append]
    refine ⟨once, apart.2.1, ?_⟩
    intro location old other new same
    obtain ⟨write, member, rfl⟩ := List.mem_map.mp old
    obtain ⟨added, among, rfl⟩ := List.mem_map.mp new
    obtain ⟨place, otherTask, there, wrote⟩ := files write member
    obtain ⟨part, named⟩ := begun.part_of_mem there wrote
    obtain ⟨addedPart, addedNamed⟩ := part_of_leading own (List.mem_append_right _ among)
    rw [named, addedNamed] at same
    obtain ⟨rfl, rfl⟩ := StoredFile.part.inj (StoredFile.child_injective same)
    rw [here] at there
    cases there
    exact apart.2.2 _ (List.mem_map_of_mem wrote) _ (List.mem_map_of_mem among)
      (named.trans addedNamed.symm)
  · intro write member
    rcases List.mem_append.mp member with old | new
    · obtain ⟨place, otherTask, there, wrote⟩ := files write old
      by_cases same : index = place
      · subst same
        rw [here] at there
        cases there
        exact ⟨index, next, List.getElem?_set_self inside,
          grown ▸ List.mem_append_left more wrote⟩
      · exact ⟨place, otherTask, (List.getElem?_set_ne same).trans there, wrote⟩
    · exact ⟨index, next, List.getElem?_set_self inside, grown ▸ List.mem_append_right _ new⟩

theorem advance (begun : session.Begun job before)
    (moved : job.advance? index session = some later) : later.Begun job before := by
  obtain ⟨task, column, write?, next, here, found, stepped, rfl | ⟨error, rfl⟩⟩ :=
    job.advance?_cases moved
  · refine begun.set here found ?_ (Task.writes_step? stepped)
    rw [Task.run_step? stepped]
    exact begun.leading index task column here found
  · -- What the store refused is in no file, and the task goes on no further.
    have own := (task.writes_run job column).trans (begun.leading index task column here found)
    have stopped : (Task.ended ⟨task.writes, .error error⟩).writes = task.writes ++ [] :=
      (List.append_nil _).symm
    exact @set job before session index begun task _ column [] here found own stopped

theorem join (begun : session.Begun job before)
    (moved : job.join? index session = some later) : later.Begun job before := by
  obtain ⟨run, id, -, -, -, rfl⟩ := job.join?_inv moved
  obtain ⟨stores, tasks, -⟩ :=
    job.collect_frame id run { session with unjoined := session.unjoined.erase index }
  refine ⟨?_, ?_, ?_⟩
  · rw [tasks]
    exact begun.tasked
  · rw [tasks]
    exact begun.leading
  · rw [stores, tasks]
    exact begun.written

theorem wroteOnce (begun : session.Begun job before) :
    WroteOnce before session.stores job.place := by
  obtain ⟨log, stores, once, files⟩ := begun.written
  refine ⟨log, stores, once, fun write member => ?_⟩
  obtain ⟨index, task, here, wrote⟩ := files write member
  obtain ⟨part, named⟩ := begun.part_of_mem here wrote
  exact ⟨.part index part, by simp, named⟩

/-- The catalog takes the place of no part. -/
theorem wroteOnce_catalog (begun : session.Begun job before) (bytes : Bytes) :
    WroteOnce before (session.stores.put (job.place.child StoredFile.catalog.name) bytes)
      job.place := by
  obtain ⟨log, stores, once, files⟩ := begun.written
  have parts (write : Location × Bytes) (member : write ∈ log) : ∃ index part,
      write.1 = job.place.location.child (StoredFile.part index part).name := by
    obtain ⟨index, task, here, wrote⟩ := files write member
    exact ⟨index, begun.part_of_mem here wrote⟩
  refine ⟨log ++ [(job.place.location.child StoredFile.catalog.name, bytes)], ?_, ?_, ?_⟩
  · rw [stores, Stores.putAll_append]
    rfl
  · rw [List.map_append, List.nodup_append]
    refine ⟨once, List.nodup_singleton _, ?_⟩
    intro location old other new same
    obtain ⟨write, member, rfl⟩ := List.mem_map.mp old
    obtain ⟨index, part, named⟩ := parts write member
    obtain ⟨added, among, rfl⟩ := List.mem_map.mp new
    rw [List.mem_singleton.mp among, named] at same
    cases StoredFile.child_injective same
  · intro write member
    rcases List.mem_append.mp member with old | new
    · obtain ⟨index, part, named⟩ := parts write old
      exact ⟨.part index part, by simp, named⟩
    · rw [List.mem_singleton.mp new]
      exact ⟨.catalog, by simp, rfl⟩

end Session.Begun

end Steps

/-- A stage of a packing whose files are each written once so far. -/
def Stage.Writes (job : Job) (before : Stores) : Stage → Prop
  | .working ownJob session => ownJob = job ∧ session.Begun job before
  | .ended stores _ => WroteOnce before stores job.place

section Stages

variable {codec : Codec} {options : PackOptions} {relation : Relation} {before : Stores}
  {path : String} {place : Place} {ids : List Nat} {ranges : List RowRange} {stage next : Stage}
  {moves : List Move} {job : Job}

theorem Stage.Writes.conclude {session : Session} (begun : session.Begun job before)
    (concluded : job.conclude? session = some next) : next.Writes job before := by
  unfold Job.conclude? at concluded
  split at concluded
  · split at concluded
    · dsimp only at concluded
      split at concluded
      · rename_i stores written
        cases concluded
        rw [Stores.eq_put_of_write written]
        exact begun.wroteOnce_catalog _
      · cases concluded
        exact begun.wroteOnce
    · cases concluded
      exact begun.wroteOnce
  · contradiction

theorem Stage.Writes.move? {move : Move} (writes : stage.Writes job before)
    (moved : stage.move? move = some next) : next.Writes job before := by
  cases stage with
  | ended stores result => contradiction
  | working ownJob session =>
      obtain ⟨rfl, begun⟩ := writes
      cases move with
      | advance index =>
          obtain ⟨later, advanced, rfl⟩ := Option.map_eq_some_iff.mp moved
          exact ⟨rfl, begun.advance advanced⟩
      | join index =>
          obtain ⟨later, joined, rfl⟩ := Option.map_eq_some_iff.mp moved
          exact ⟨rfl, begun.join joined⟩
      | conclude => exact .conclude begun moved

theorem Stage.Writes.wroteOnce (writes : stage.Writes job before) :
    WroteOnce before stage.stores job.place := by
  cases stage with
  | working ownJob session =>
      obtain ⟨rfl, begun⟩ := writes
      exact begun.wroteOnce
  | ended stores result => exact writes

/-- Whatever moves are made, no file of the directory is written twice. -/
theorem Stage.wroteOnce (resolved : before.resolve path = .ok place)
    (moved : (Stage.start codec options before path relation ids).after? moves = some stage) :
    WroteOnce before stage.stores place := by
  cases planned : plan options relation with
  | error error =>
      rw [Stage.start_refused planned] at moved
      obtain ⟨-, rfl⟩ := Stage.after?_ended moved
      exact ⟨[], rfl, List.nodup_nil, by simp⟩
  | ok ranges =>
      rw [start_of_plan planned resolved, after?_eq] at moved
      let job := jobAt codec options relation place ranges ids
      have first : (Stage.working job (job.start before)).Writes job before :=
        ⟨rfl, .start job before⟩
      exact (Moves.after?_keeps (fun writes step => Writes.move? writes step) first moved).wroteOnce

end Stages

end Columnar.Pack
