import Columnar.Proofs.Read.Tasks

namespace Columnar.Read

/-!
Collecting what the tasks leave, in whatever order they are joined.

The failures listed so far and those of the tasks that are still to be joined are all there will be.
A column has an entry among the rows once one of its tasks is joined, however many more it has.
-/

section Requests

variable {before : Stores} {path : String} {requests : List Nat} {column rows : Nat}

theorem failure?_eq_some {failure : ColumnFailure} :
    failure? before path column = some failure ↔
      failure.column = column ∧ text before path column = .error failure.error := by
  obtain ⟨place, error⟩ := failure
  rw [failure?]
  cases text before path column with
  | ok read => simp
  | error other =>
      simp only [Option.some.injEq, ColumnFailure.mk.injEq, Except.error.injEq]
      rw [eq_comm, @eq_comm _ other error]

theorem mem_failures_iff {failure : ColumnFailure} :
    failure ∈ requests.filterMap (failure? before path) ↔
      failure.column ∈ requests ∧ text before path failure.column = .error failure.error := by
  simp only [List.mem_filterMap, failure?_eq_some]
  constructor
  · rintro ⟨column, requested, rfl, failed⟩
    exact ⟨requested, failed⟩
  · rintro ⟨requested, failed⟩
    exact ⟨_, requested, rfl, failed⟩

theorem filterMap_getElem?_range (list : List Nat) :
    ((List.range list.length).filterMap fun index => list[index]?) = list := by
  induction list with
  | nil => rfl
  | cons first rest ih =>
      rw [List.length_cons, List.range_succ_eq_map, List.filterMap_cons, List.filterMap_map]
      exact congrArg (first :: ·) ih

end Requests

/-- What has been collected by a session of the tasks of its requests. -/
structure Session.Collected (job : Job) (before : Stores) (session : Session) : Prop where
  known : ∀ index ∈ session.unjoined, index < job.requests.length
  sound : ∀ entry ∈ session.rows, ∃ content,
    text before job.path entry.1 = .ok (entry.2, content)
  present : ∀ index column rows content, index ∉ session.unjoined →
    job.requests[index]? = some column → text before job.path column = .ok (rows, content) →
    (column, rows) ∈ session.rows
  failed : (session.failures ++ session.unjoined.filterMap fun index =>
    job.requests[index]?.bind (failure? before job.path)).Perm
      (job.requests.filterMap (failure? before job.path))

namespace Session.Collected

variable {job : Job} {before : Stores} {session : Session} {index column : Nat}

theorem start (job : Job) (before : Stores) : (job.start before).Collected job before := by
  refine ⟨?_, ?_, ?_, ?_⟩
  · intro index waiting
    exact List.mem_range.mp waiting
  · intro entry member
    contradiction
  · intro index column rows content outside requested
    have inside := (List.getElem?_eq_some_iff.mp requested).1
    exact (outside (List.mem_range.mpr inside)).elim
  · rw [Job.start, List.nil_append, ← List.filterMap_filterMap, filterMap_getElem?_range]

/-- What the task that is joined has failed with is the only failure that its session no longer
waits for. -/
theorem waiting_perm (before : Stores) (waiting : index ∈ session.unjoined)
    (requested : job.requests[index]? = some column) :
    (session.unjoined.filterMap fun index =>
      job.requests[index]?.bind (failure? before job.path)).Perm
        ((failure? before job.path column).toList ++
          (session.unjoined.erase index).filterMap fun index =>
            job.requests[index]?.bind (failure? before job.path)) := by
  refine ((List.perm_cons_erase waiting).filterMap _).trans ?_
  rw [List.filterMap_cons, requested, Option.bind_some]
  cases failure? before job.path column with
  | none => exact .refl _
  | some failure => exact .refl _

theorem present_erase (collected : session.Collected job before)
    (requested : job.requests[index]? = some column) {other place rows : Nat} {content : String}
    (outside : other ∉ session.unjoined.erase index) (there : job.requests[other]? = some place)
    (read : text before job.path place = .ok (rows, content)) :
    place = column ∨ (place, rows) ∈ session.rows := by
  by_cases same : other = index
  · rw [same, requested] at there
    exact .inl (Option.some.inj there).symm
  · refine .inr (collected.present other place rows content (fun waits => outside ?_) there read)
    exact (List.mem_erase_of_ne same).mpr waits

theorem join_ok {rows : Nat} {content : String} (collected : session.Collected job before)
    (waiting : index ∈ session.unjoined) (requested : job.requests[index]? = some column)
    (read : text before job.path column = .ok (rows, content)) :
    Session.Collected job before { session with
      unjoined := session.unjoined.erase index
      rows := (column, rows) :: session.rows } := by
  refine ⟨?_, ?_, ?_, ?_⟩
  · intro other member
    exact collected.known other (List.mem_of_mem_erase member)
  · intro entry member
    rcases List.mem_cons.mp member with rfl | member
    · exact ⟨content, read⟩
    · exact collected.sound entry member
  · intro other place count text outside there done
    rcases collected.present_erase requested outside there done with rfl | member
    · rw [read] at done
      cases done
      exact List.mem_cons_self
    · exact List.mem_cons_of_mem _ member
  · have none : failure? before job.path column = none := by rw [failure?, read]
    have rest := waiting_perm before waiting requested
    rw [none, Option.toList_none, List.nil_append] at rest
    exact (rest.symm.append_left _).trans collected.failed

theorem join_error {error : Error} (collected : session.Collected job before)
    (waiting : index ∈ session.unjoined) (requested : job.requests[index]? = some column)
    (refused : text before job.path column = .error error) :
    Session.Collected job before { session with
      unjoined := session.unjoined.erase index
      failures := session.failures ++ [⟨column, error⟩] } := by
  refine ⟨?_, collected.sound, ?_, ?_⟩
  · intro other member
    exact collected.known other (List.mem_of_mem_erase member)
  · intro other place rows content outside there done
    rcases collected.present_erase requested outside there done with rfl | member
    · rw [refused] at done
      contradiction
    · exact member
  · have some : failure? before job.path column = some ⟨column, error⟩ := by rw [failure?, refused]
    have rest := waiting_perm before waiting requested
    rw [some, Option.toList_some] at rest
    rw [List.append_assoc]
    exact (rest.symm.append_left _).trans collected.failed

/-- Joining a task collects what it ended with, for the column that it was spawned for. -/
theorem join {id : Nat} (collected : session.Collected job before) (distinct : job.ids.Nodup)
    (waiting : index ∈ session.unjoined) (named : job.ids[index]? = some id)
    (requested : job.requests[index]? = some column) :
    (job.collect id ((text before job.path column).map (·.1))
      { session with unjoined := session.unjoined.erase index }).Collected job before := by
  have found : job.columnOf? id = some column := by
    rw [Job.columnOf?, idxOf?_of_getElem? distinct named]
    exact requested
  cases read : text before job.path column with
  | ok done =>
      simp only [Except.map, Job.collect, found]
      exact collected.join_ok waiting requested read
  | error error =>
      simp only [Except.map, Job.collect, found, Option.getD_some]
      exact collected.join_error waiting requested read

theorem failures_perm (collected : session.Collected job before) (all : session.unjoined = []) :
    session.failures.Perm (job.requests.filterMap (failure? before job.path)) := by
  have failed := collected.failed
  rwa [all, List.filterMap_nil, List.append_nil] at failed

theorem sorted_eq (collected : session.Collected job before) (all : session.unjoined = []) :
    (session.failures.mergeSort fun left right => left.column ≤ right.column) =
      (job.requests.filterMap (failure? before job.path)).mergeSort
        fun left right => left.column ≤ right.column := by
  have sorted := List.mergeSort_perm (job.requests.filterMap (failure? before job.path))
    fun left right => left.column ≤ right.column
  apply sorted_eq_of_perm ((collected.failures_perm all).trans sorted.symm)
  · -- Requests of one column fail alike.
    intro left leftIn right rightIn same
    have leftError := (mem_failures_iff.mp (sorted.subset leftIn)).2
    have rightError := (mem_failures_iff.mp (sorted.subset rightIn)).2
    obtain ⟨leftColumn, leftCause⟩ := left
    obtain ⟨rightColumn, rightCause⟩ := right
    obtain rfl : leftColumn = rightColumn := same
    rw [leftError] at rightError
    cases rightError
    rfl
  · exact pairwise_sorted _

theorem lookup_eq (collected : session.Collected job before) {rows : Nat} {content : String}
    (read : text before job.path column = .ok (rows, content))
    (member : (column, rows) ∈ session.rows) : session.rows.lookup column = some rows := by
  cases found : session.rows.lookup column with
  | none =>
      have absent := List.lookup_eq_none_iff.mp found _ member
      rw [bne_self_eq_false] at absent
      contradiction
  | some other =>
      obtain ⟨front, back, split, -⟩ := List.lookup_eq_some_iff.mp found
      have among : (column, other) ∈ session.rows := by
        rw [split]
        exact List.mem_append_right _ List.mem_cons_self
      obtain ⟨text, done⟩ := collected.sound _ among
      rw [read] at done
      cases done
      rfl

/-- Every request finds the rows of its column, those of a repeated one in the one entry. -/
theorem counts_eq (collected : session.Collected job before) (all : session.unjoined = [])
    (succeeded : job.requests.filterMap (failure? before job.path) = []) :
    (job.requests.map fun column => (column, (session.rows.lookup column).getD 0)) =
      rowCounts before job.path job.requests := by
  rw [← List.filterMap_eq_map, rowCounts]
  apply List.filterMap_congr
  intro column requested
  have none := List.filterMap_eq_nil_iff.mp succeeded column requested
  rw [failure?] at none
  split at none
  · rename_i read done
    obtain ⟨index, here⟩ := List.mem_iff_getElem?.mp requested
    have outside : index ∉ session.unjoined := by
      rw [all]
      exact List.not_mem_nil
    have entry := collected.present index column read.1 read.2 outside here done
    rw [done, Function.comp_apply, collected.lookup_eq done entry]
    rfl
  · contradiction

end Session.Collected

end Columnar.Read
