import Columnar.Proofs.Pack.Failures
import Columnar.Proofs.Pack.Tasks

namespace Columnar.Pack

/-!
Collecting what the tasks leave, in whatever order they are joined.

At any time the slots of the columns whose tasks are joined hold their statistics, and the failures
list their errors, each once.  When all tasks are joined, this is what packing the columns one after
another gives.
-/

section Runs

variable {runs : List ColumnRun}

theorem mem_failures_iff {start : Nat} {failure : ColumnFailure} :
    failure ∈ failures start runs ↔
      ∃ index run, runs[index]? = some run ∧ failure.column = start + index ∧
        run.result = .error failure.error := by
  refine ⟨mem_failures, ?_⟩
  rintro ⟨index, run, found, column, failed⟩
  induction runs generalizing start index with
  | nil => simp at found
  | cons first rest ih =>
      rw [failures]
      cases index with
      | zero =>
          cases found
          rw [failed]
          obtain ⟨place, error⟩ := failure
          cases column
          exact List.mem_cons_self
      | succ index =>
          have later : failure ∈ failures (start + 1) rest :=
            ih index found (by rw [column]; omega)
          split
          · exact later
          · exact List.mem_cons_of_mem _ later

theorem pairwise_failures {start : Nat} :
    (failures start runs).Pairwise fun left right => left.column < right.column := by
  induction runs generalizing start with
  | nil => exact .nil
  | cons run rest ih =>
      rw [failures]
      split
      · exact ih
      · refine .cons (fun failure member => ?_) ih
        obtain ⟨index, -, -, column, -⟩ := mem_failures member
        rw [column]
        show start < start + 1 + index
        omega

end Runs

/-- What has been collected of runs by a session. -/
structure Session.Collected (runs : List ColumnRun) (session : Session) : Prop where
  waiting : session.unjoined.Nodup
  known : ∀ index ∈ session.unjoined, index < runs.length
  slots : session.stats.length = runs.length
  filled : ∀ index run, runs[index]? = some run →
    session.stats[index]? = some (if index ∈ session.unjoined then none else run.result.toOption)
  listed : ∀ failure, failure ∈ session.failures ↔ failure.column ∉ session.unjoined ∧
    ∃ run, runs[failure.column]? = some run ∧ run.result = .error failure.error
  once : (session.failures.map (·.column)).Nodup

namespace Session.Collected

variable {job : Job} {session : Session} {runs : List ColumnRun} {run : ColumnRun} {index : Nat}

theorem start {job : Job} (stores : Stores)
    (counted : runs.length = job.relation.columns.length) : (job.start stores).Collected runs := by
  refine ⟨List.nodup_range, ?_, ?_, ?_, ?_, List.nodup_nil⟩
  · intro index waiting
    rw [counted]
    exact List.mem_range.mp waiting
  · rw [counted]
    exact List.length_replicate
  · intro index run found
    have inside : index < job.relation.columns.length := by
      rw [← counted]
      exact (List.getElem?_eq_some_iff.mp found).1
    simp only [Job.start, List.getElem?_replicate, inside, if_true, List.mem_range]
  · intro failure
    simp only [Job.start, List.not_mem_nil, List.mem_range, false_iff, not_and, not_exists]
    intro outside run found
    have inside := (List.getElem?_eq_some_iff.mp found).1
    omega

theorem mem_erase (collected : session.Collected runs) (index other : Nat) :
    other ∈ session.unjoined.erase index ↔ other ≠ index ∧ other ∈ session.unjoined :=
  collected.waiting.mem_erase_iff

theorem join_ok {stats : ColumnStats} (collected : session.Collected runs)
    (waiting : index ∈ session.unjoined) (found : runs[index]? = some run)
    (ended : run.result = .ok stats) :
    Session.Collected runs { session with
      unjoined := session.unjoined.erase index
      stats := session.stats.set index (some stats) } := by
  have left := collected.mem_erase index
  refine ⟨collected.waiting.erase index, ?_, ?_, ?_, ?_, collected.once⟩
  · intro other member
    exact collected.known other ((left other).mp member).2
  · exact (List.length_set ..).trans collected.slots
  · intro other otherRun there
    rw [List.getElem?_set]
    split
    · rename_i same
      subst same
      rw [found] at there
      cases there
      rw [if_pos (by rw [collected.slots]; exact collected.known _ waiting),
        if_neg fun stays => ((left _).mp stays).1 rfl, ended, Except.toOption]
    · rename_i differs
      rw [collected.filled other otherRun there]
      simp only [left, ne_eq, Ne.symm differs, not_false_eq_true, true_and]
  · intro failure
    rw [collected.listed, left]
    constructor
    · rintro ⟨joined, failed⟩
      exact ⟨fun stays => joined stays.2, failed⟩
    · -- The task joined is none that failed.
      rintro ⟨joined, other, there, failed⟩
      refine ⟨fun stays => joined ⟨fun same => ?_, stays⟩, other, there, failed⟩
      rw [same, found] at there
      cases there
      rw [ended] at failed
      contradiction

theorem join_error {error : Error} (collected : session.Collected runs)
    (waiting : index ∈ session.unjoined) (found : runs[index]? = some run)
    (ended : run.result = .error error) :
    Session.Collected runs { session with
      unjoined := session.unjoined.erase index
      failures := session.failures ++ [⟨index, error⟩] } := by
  have left := collected.mem_erase index
  refine ⟨collected.waiting.erase index, ?_, collected.slots, ?_, ?_, ?_⟩
  · intro other member
    exact collected.known other ((left other).mp member).2
  · intro other otherRun there
    rw [collected.filled other otherRun there]
    by_cases same : other = index
    · subst same
      rw [found] at there
      cases there
      rw [if_pos waiting, if_neg fun stays => ((left _).mp stays).1 rfl, ended, Except.toOption]
    · simp only [left, ne_eq, same, not_false_eq_true, true_and]
  · intro failure
    rw [List.mem_append, collected.listed, List.mem_singleton, left]
    constructor
    · rintro (⟨joined, failed⟩ | rfl)
      · exact ⟨fun stays => joined stays.2, failed⟩
      · exact ⟨fun stays => stays.1 rfl, run, found, ended⟩
    · rintro ⟨joined, other, there, failed⟩
      by_cases same : failure.column = index
      · right
        rw [same, found] at there
        cases there
        rw [ended] at failed
        cases failed
        rw [← same]
      · exact .inl ⟨fun stays => joined ⟨same, stays⟩, other, there, failed⟩
  · rw [List.map_append, List.map_singleton]
    refine List.nodup_append.mpr ⟨collected.once, List.nodup_singleton _, ?_⟩
    intro listed member other single same
    obtain ⟨failure, among, rfl⟩ := List.mem_map.mp member
    rw [List.mem_singleton.mp single] at same
    exact ((collected.listed failure).mp among).1 (same ▸ waiting)

/-- Joining a task collects what it ended with, at its own column. -/
theorem join {id : Nat} (collected : session.Collected runs) (distinct : job.ids.Nodup)
    (waiting : index ∈ session.unjoined) (named : job.ids[index]? = some id)
    (found : runs[index]? = some run) :
    (job.collect id run { session with unjoined := session.unjoined.erase index }).Collected
      runs := by
  have column : job.columnOf? id = some index := idxOf?_of_getElem? distinct named
  cases ended : run.result with
  | ok stats =>
      simp only [Job.collect, ended, column]
      exact collected.join_ok waiting found ended
  | error error =>
      simp only [Job.collect, ended, column, Option.getD_some]
      exact collected.join_error waiting found ended

theorem statistics_eq (collected : session.Collected runs) (all : session.unjoined = []) :
    session.stats.filterMap id = statistics runs := by
  have slots : session.stats = runs.map fun run => run.result.toOption := by
    apply List.ext_getElem?
    intro index
    rw [List.getElem?_map]
    cases found : runs[index]? with
    | none =>
        have outside := List.getElem?_eq_none_iff.mp found
        exact List.getElem?_eq_none_iff.mpr (collected.slots ▸ outside)
    | some run =>
        rw [collected.filled index run found, all, if_neg List.not_mem_nil, Option.map_some]
  rw [slots, List.filterMap_map]
  rfl

theorem mem_failures (collected : session.Collected runs) (all : session.unjoined = [])
    (failure : ColumnFailure) : failure ∈ session.failures ↔ failure ∈ Pack.failures 0 runs := by
  rw [collected.listed, mem_failures_iff, all]
  constructor
  · rintro ⟨-, run, found, failed⟩
    exact ⟨failure.column, run, found, (Nat.zero_add _).symm, failed⟩
  · rintro ⟨index, run, found, column, failed⟩
    rw [Nat.zero_add] at column
    exact ⟨List.not_mem_nil, run, column ▸ found, failed⟩

theorem sorted_eq (collected : session.Collected runs) (all : session.unjoined = []) :
    (session.failures.mergeSort fun left right => left.column ≤ right.column) =
      Pack.failures 0 runs := by
  have ascending : (Pack.failures 0 runs).Pairwise fun left right => left.column < right.column :=
    pairwise_failures
  have same : session.failures.Perm (Pack.failures 0 runs) := by
    refine (List.perm_ext_iff_of_nodup (.of_map _ collected.once) ?_).mpr
      (collected.mem_failures all)
    exact ascending.imp fun before same => Nat.ne_of_lt before (congrArg ColumnFailure.column same)
  apply sorted_eq_of_perm same
  · -- Two failures of one column are one, as each column ended with one result.
    intro left leftIn right rightIn sameColumn
    have leftError := ((collected.listed left).mp ((collected.mem_failures all _).mpr leftIn)).2
    have rightError := ((collected.listed right).mp ((collected.mem_failures all _).mpr rightIn)).2
    obtain ⟨leftColumn, leftCause⟩ := left
    obtain ⟨rightColumn, rightCause⟩ := right
    obtain rfl : leftColumn = rightColumn := sameColumn
    obtain ⟨run, found, failed⟩ := leftError
    obtain ⟨other, there, otherFailed⟩ := rightError
    rw [found] at there
    cases there
    rw [failed] at otherFailed
    cases otherFailed
    rfl
  · exact ascending.imp Nat.le_of_lt

end Session.Collected

end Columnar.Pack
