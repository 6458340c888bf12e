import Columnar.Error
import Columnar.Total
import Mathlib.Data.List.Nodup

namespace Columnar

/-!
Systems that go on by moves.

A move leads from one state to the next, or cannot be made.  What every move keeps holds after a run
of them, and a run is no longer than what is left to do when each move leaves less.  The systems
here have tasks, which are known by their ids when they are joined, and list the failures of those
by column.
-/

namespace Moves

variable {State Move : Type} {move? : Move → State → Option State} {holds : State → Prop}
  {state final : State} {moves : List Move}

def after? (move? : Move → State → Option State) (state : State) : List Move → Option State
  | [] => some state
  | move :: rest => (move? move state).bind fun next => after? move? next rest

theorem after?_keeps
    (keeps : ∀ {state next : State} {move : Move}, holds state → move? move state = some next →
      holds next)
    (first : holds state) (moved : after? move? state moves = some final) : holds final := by
  induction moves generalizing state with
  | nil =>
      cases moved
      exact first
  | cons move rest ih =>
      obtain ⟨next, step, later⟩ := Option.bind_eq_some_iff.mp moved
      exact ih (keeps first step) later

theorem length_le_remaining {remaining : State → Nat}
    (keeps : ∀ {state next : State} {move : Move}, holds state → move? move state = some next →
      holds next)
    (less : ∀ {state next : State} {move : Move}, holds state → move? move state = some next →
      remaining next < remaining state)
    (first : holds state) (moved : after? move? state moves = some final) :
    moves.length ≤ remaining state := by
  induction moves generalizing state with
  | nil => exact Nat.zero_le _
  | cons move rest ih =>
      obtain ⟨next, step, later⟩ := Option.bind_eq_some_iff.mp moved
      have shorter := ih (keeps first step) later
      have fewer := less first step
      rw [List.length_cons]
      omega

end Moves

section Tasks

variable {Task : Type} {tasks : List Task} {index other : Nat} {task next : Task}

/-- A task that is replaced leaves every other in its place. -/
theorem eq_or_of_getElem?_set (there : (tasks.set index next)[other]? = some task) :
    (other = index ∧ task = next) ∨ tasks[other]? = some task := by
  rw [List.getElem?_set] at there
  split at there
  · rename_i same
    split at there
    · cases there
      exact .inl ⟨same.symm, rfl⟩
    · contradiction
  · exact .inr there

theorem total_map_set_lt {remaining : Task → Nat} (here : tasks[index]? = some task)
    (fewer : remaining next < remaining task) :
    total ((tasks.set index next).map remaining) < total (tasks.map remaining) := by
  induction tasks generalizing index with
  | nil => contradiction
  | cons first rest ih =>
      cases index with
      | zero =>
          cases here
          simp only [List.set_cons_zero, List.map_cons, total_cons]
          omega
      | succ index =>
          have less := ih here
          simp only [List.set_cons_succ, List.map_cons, total_cons]
          omega

theorem idxOf?_of_getElem? {ids : List Nat} {id : Nat} (distinct : ids.Nodup)
    (named : ids[index]? = some id) : ids.idxOf? id = some index := by
  obtain ⟨inside, here⟩ := List.getElem?_eq_some_iff.mp named
  refine List.idxOf?_eq_some_iff.mpr ⟨inside, here, fun other before same => ?_⟩
  have equal : ids[other] = ids[index] := same.trans here.symm
  exact Nat.ne_of_lt before ((distinct.getElem_inj_iff).mp equal)

end Tasks

section Failures

variable {listed others : List ColumnFailure}

theorem pairwise_sorted (failures : List ColumnFailure) :
    (failures.mergeSort fun left right => left.column ≤ right.column).Pairwise
      fun left right => left.column ≤ right.column := by
  refine (List.pairwise_mergeSort ?_ ?_ failures).imp of_decide_eq_true
  · intro first second third before after
    exact decide_eq_true (Nat.le_trans (of_decide_eq_true before) (of_decide_eq_true after))
  · intro first second
    rw [Bool.or_eq_true, decide_eq_true_eq, decide_eq_true_eq]
    exact Nat.le_total ..

/-- Failures are listed in one order, in whatever order they came, when no column has failed in two
ways. -/
theorem sorted_eq_of_perm (same : listed.Perm others)
    (one : ∀ left ∈ others, ∀ right ∈ others, left.column = right.column → left = right)
    (ascending : others.Pairwise fun left right => left.column ≤ right.column) :
    (listed.mergeSort fun left right => left.column ≤ right.column) = others := by
  have whole := (List.mergeSort_perm listed fun left right => left.column ≤ right.column).trans same
  refine List.Perm.eq_of_pairwise ?_ (pairwise_sorted listed) ascending whole
  intro left right leftIn rightIn before after
  exact one left (whole.subset leftIn) right rightIn (Nat.le_antisymm before after)

end Failures

end Columnar
