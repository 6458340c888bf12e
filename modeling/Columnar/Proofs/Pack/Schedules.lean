import Columnar.Proofs.Pack.Sessions

namespace Columnar.Pack

/-!
Schedules of the tasks that pack a relation.

In whatever order tasks take their steps and are joined, packing goes on until it ends, and it ends
with what it ends with when the columns are packed one after another.
-/

section Stages

variable {codec : Codec} {options : PackOptions} {relation : Relation} {before after : Stores}
  {path : String} {place : Place} {ids : List Nat} {ranges : List RowRange} {stage next : Stage}
  {moves : List Move} {result : Except RunError PackReport}

/-- A job in the memory store whose tasks have ids of their own. -/
structure Job.Settled (job : Job) (before : Stores) (path : String) : Prop where
  planned : plan job.options job.relation = .ok job.ranges
  resolved : before.resolve path = .ok job.place
  memory : job.place.store = .memory
  distinct : job.ids.Nodup

/-- A stage on the way to what packing the columns one after another gives, or there. -/
def Stage.Leads (job : Job) (before : Stores) (path : String) : Stage → Prop
  | .working ownJob session => ownJob = job ∧ session.Tracks job before
  | .ended stores result =>
      result = (Pack.relation job.codec job.options before path job.relation).1 ∧
        stores.Agrees (Pack.relation job.codec job.options before path job.relation).2

theorem relation_refused {error : Error} (planned : plan options relation = .error error) :
    Pack.relation codec options before path relation = (.error (.single error), before) := by
  simp only [Pack.relation, planned, bind, Except.bind]

theorem Stage.start_refused {error : Error} (planned : plan options relation = .error error) :
    Stage.start codec options before path relation ids =
      .ended before (.error (.single error)) := by
  simp only [Stage.start, Job.ofPath, planned, bind, Except.bind]

def jobAt (codec : Codec) (options : PackOptions) (relation : Relation) (place : Place)
    (ranges : List RowRange) (ids : List Nat) : Job :=
  { codec, options, relation, place, ranges, ids }

theorem Stage.start_of_plan (planned : plan options relation = .ok ranges)
    (resolved : before.resolve path = .ok place) :
    Stage.start codec options before path relation ids =
      .working (jobAt codec options relation place ranges ids)
        ((jobAt codec options relation place ranges ids).start before) := by
  simp only [Stage.start, Job.ofPath, planned, resolved, mapError_ok, bind, Except.bind, pure,
    Except.pure]
  rfl

theorem Stage.Leads.conclude {session : Session} {job : Job} (settled : job.Settled before path)
    (tracks : session.Tracks job before) (concluded : job.conclude? session = some next) :
    next.Leads job before path := by
  obtain ⟨planned, resolved, memory, -⟩ := settled
  unfold Job.conclude? at concluded
  split at concluded
  · rename_i all
    have failures : session.failures = [] ↔ Pack.failures 0 job.runs = [] := by
      rw [List.eq_nil_iff_forall_not_mem, List.eq_nil_iff_forall_not_mem]
      simp only [tracks.collected.mem_failures all]
    have agrees := tracks.agrees memory all
    split at concluded
    · rename_i none
      simp only [Place.child, memory, Stores.write_memory] at concluded
      cases concluded
      rw [Leads, relation_ended planned resolved memory (failures.mp none),
        tracks.collected.statistics_eq all, Place.child, memory]
      refine ⟨rfl, ?_⟩
      rw [memory] at agrees
      exact agrees.put_memory ..
    · rename_i some
      cases concluded
      rw [Leads, relation_stopped planned resolved memory fun none => some (failures.mpr none),
        tracks.collected.sorted_eq all]
      exact ⟨rfl, agrees⟩
  · contradiction

theorem Stage.Leads.move? {move : Move} {job : Job} (settled : job.Settled before path)
    (leads : stage.Leads job before path) (moved : stage.move? move = some next) :
    next.Leads job before path := by
  cases stage with
  | ended stores result => contradiction
  | working ownJob session =>
      obtain ⟨rfl, tracks⟩ := leads
      cases move with
      | advance index =>
          obtain ⟨later, advanced, rfl⟩ := Option.map_eq_some_iff.mp moved
          exact ⟨rfl, tracks.advance settled.memory advanced⟩
      | join index =>
          obtain ⟨later, joined, rfl⟩ := Option.map_eq_some_iff.mp moved
          exact ⟨rfl, tracks.join settled.distinct joined⟩
      | conclude => exact .conclude settled tracks moved

/-- Whatever moves are made, a packing that has a plan is on its way. -/
theorem Stage.leads_of_after? (planned : plan options relation = .ok ranges)
    (resolved : before.resolve path = .ok place) (memory : place.store = .memory)
    (distinct : ids.Nodup)
    (moved : (Stage.start codec options before path relation ids).after? moves = some stage) :
    stage.Leads (jobAt codec options relation place ranges ids) before path := by
  rw [start_of_plan planned resolved] at moved
  let job := jobAt codec options relation place ranges ids
  have settled : job.Settled before path := ⟨planned, resolved, memory, distinct⟩
  have first : (Stage.working job (job.start before)).Leads job before path :=
    ⟨rfl, .start job before⟩
  rw [after?_eq] at moved
  exact Moves.after?_keeps (fun leads step => Leads.move? settled leads step) first moved

theorem Stage.Leads.length_le {job : Job} (settled : job.Settled before path)
    (leads : stage.Leads job before path) (moved : stage.after? moves = some next) :
    moves.length ≤ stage.remaining := by
  rw [after?_eq] at moved
  refine Moves.length_le_remaining (fun leads step => Leads.move? settled leads step) ?_ leads moved
  intro stage next move leads step
  cases stage with
  | ended stores result => contradiction
  | working ownJob session =>
      obtain ⟨rfl, -⟩ := leads
      exact Stage.remaining_move? settled.memory step

theorem Stage.after?_ended {stores : Stores}
    (moved : (Stage.ended stores result).after? moves = some next) :
    moves = [] ∧ next = .ended stores result := by
  cases moves with
  | nil =>
      cases moved
      exact ⟨rfl, rfl⟩
  | cons move rest => contradiction

/-- How packing at a place in the memory store ends, and what it leaves there. -/
def EndsWith (codec : Codec) (options : PackOptions) (relation : Relation) (before : Stores)
    (place : Place) (after : Stores) : Except RunError PackReport → Prop
  | .ok report => ∃ ranges, plan options relation = .ok ranges ∧
      InColumnOrder codec options relation place.location ranges report
  | .error (.columns failed) => ∃ ranges, plan options relation = .ok ranges ∧
      ColumnsFailed codec options relation before after place ranges failed
  | .error (.single error) => plan options relation = .error error ∧ after.Agrees before

theorem endsWith_relation (resolved : before.resolve path = .ok place)
    (memory : place.store = .memory)
    (agrees : after.Agrees (Pack.relation codec options before path relation).2) :
    EndsWith codec options relation before place after
      (Pack.relation codec options before path relation).1 := by
  cases planned : plan options relation with
  | error error =>
      rw [relation_refused planned] at agrees ⊢
      exact ⟨planned, agrees⟩
  | ok ranges =>
      by_cases none : failures 0 (columns codec options relation place.location ranges) = []
      · rw [relation_ended planned resolved memory none]
        exact ⟨ranges, planned, inColumnOrder (failures_eq_nil_iff.mp none)⟩
      · rw [relation_stopped planned resolved memory none] at agrees ⊢
        exact ⟨ranges, planned, columnsFailed memory agrees none⟩

/-- However the tasks take turns and in whatever order they are joined, packing goes on until it
ends, and ends as packing the columns one after another does. -/
theorem schedules_confluent (codec : Codec) (options : PackOptions)
    (resolved : before.resolve path = .ok place) (memory : place.store = .memory)
    (named : ids.length = relation.columns.length) (distinct : ids.Nodup) :
    (∀ moves stage,
      (Stage.start codec options before path relation ids).after? moves = some stage →
        moves.length ≤ (Stage.start codec options before path relation ids).remaining ∧
        ((∃ after result, stage = .ended after result) ∨
          ∃ move next, stage.move? move = some next)) ∧
    ∀ moves after result,
      (Stage.start codec options before path relation ids).after? moves =
          some (.ended after result) →
        result = (Pack.relation codec options before path relation).1 ∧
        after.Agrees (Pack.relation codec options before path relation).2 ∧
        EndsWith codec options relation before place after result := by
  cases planned : plan options relation with
  | error error =>
      -- A refused plan leaves nothing to move.
      rw [Stage.start_refused planned, relation_refused planned]
      refine ⟨fun moves stage moved => ?_, fun moves after result moved => ?_⟩
      · obtain ⟨rfl, rfl⟩ := Stage.after?_ended moved
        exact ⟨Nat.le_refl _, .inl ⟨_, _, rfl⟩⟩
      · obtain ⟨rfl, ended⟩ := Stage.after?_ended moved
        cases ended
        exact ⟨rfl, .refl before, planned, .refl before⟩
  | ok ranges =>
      have reached (moves : List Move) (stage : Stage)
          (moved : (Stage.start codec options before path relation ids).after? moves = some stage) :=
        Stage.leads_of_after? planned resolved memory distinct moved
      have first := reached [] _ rfl
      refine ⟨fun moves stage moved => ?_, fun moves after result moved => ?_⟩
      · refine ⟨first.length_le ⟨planned, resolved, memory, distinct⟩ moved, ?_⟩
        have leads := reached moves stage moved
        cases stage with
        | ended stores result => exact .inl ⟨stores, result, rfl⟩
        | working ownJob session =>
            obtain ⟨rfl, tracks⟩ := leads
            exact .inr (tracks.exists_move named)
      · obtain ⟨rfl, agrees⟩ := reached moves _ moved
        exact ⟨rfl, agrees, endsWith_relation resolved memory agrees⟩

def onesBesideTwo : Relation :=
  ⟨[.present "a" (.integers [1, 1]), .present "b" (.integers [1, 2])], 2⟩

def inTurns : List Move :=
  [.advance 1, .advance 0, .advance 1, .join 1, .advance 0, .advance 0, .join 0, .conclude]

theorem schedules_confluent_onesBesideTwo :
    ∃ after failed,
      (Stage.start repeating rowByRow (.empty "") "memory://t" onesBesideTwo [7, 4]).after? inTurns =
        some (.ended after (.error (.columns failed))) ∧
      ⟨1, .verification 1 1 (.value 0)⟩ ∈ failed ∧
      after.object? ⟨.memory, ⟨["t", "metadata"]⟩⟩ = none := by
  have resolved : (Stores.empty "").resolve "memory://t" = .ok ⟨.memory, ⟨["t"]⟩⟩ := rfl
  have named : [7, 4].length = onesBesideTwo.columns.length := rfl
  have distinct : [7, 4].Nodup := by decide
  have moved : ∃ after result,
      (Stage.start repeating rowByRow (.empty "") "memory://t" onesBesideTwo [7, 4]).after? inTurns =
        some (.ended after result) := ⟨_, _, rfl⟩
  obtain ⟨after, result, moved⟩ := moved
  obtain ⟨same, agrees, -⟩ :=
    (schedules_confluent repeating rowByRow resolved rfl named distinct).2 inTurns after result moved
  have whole : relation repeating rowByRow (.empty "") "memory://t" onesBesideTwo =
      (.error (.columns [⟨1, .verification 1 1 (.value 0)⟩]),
        (relation repeating rowByRow (.empty "") "memory://t" onesBesideTwo).2) := rfl
  rw [whole] at same
  subst same
  refine ⟨after, _, moved, List.mem_cons_self, ?_⟩
  rw [agrees.object?]
  decide +kernel

end Stages

end Columnar.Pack
