import Columnar.Proofs.Relation.Building

namespace Columnar.Relation

/-!
Relations that additions lead to, refused ones included.

A refused column is not kept, but the first data column may leave its number of values behind as the
number of rows.  Nothing reads that number before another data column sets it, so relations that
differ in it alone are `Alike`, and what additions lead to is alike to what the accepted ones build.
-/

/-- Relations that adding columns leads to, whether or not an addition succeeds. -/
inductive Reached : Relation → Prop
  | empty : Reached .empty
  | add {relation : Relation} (column : Column) {bits : List Bool} (reached : Reached relation)
      (represents : column.validity.Represents bits) : Reached (relation.addColumn column).2

/-- Two relations of the same columns, which have the same rows once a column has data. -/
structure Alike (left right : Relation) : Prop where
  columns : left.columns = right.columns
  rows : left.hasData = true → left = right

theorem Alike.refl (relation : Relation) : relation.Alike relation := ⟨rfl, fun _ => rfl⟩

theorem hasData_congr {left right : Relation} (columns : left.columns = right.columns) :
    left.hasData = right.hasData := by
  rw [hasData, hasData, columns]

/-- Without data, the number of rows has no part in an addition but to stand behind a skipped
column. -/
theorem addColumn_without_data {left right : Relation} (columns : left.columns = right.columns)
    (none : left.hasData = false) (column : Column) :
    (left.addColumn column).1 = (right.addColumn column).1 ∧
      (left.addColumn column).2.columns = (right.addColumn column).2.columns ∧
      (column.type ≠ .skip → left.addColumn column = right.addColumn column) := by
  have other : right.hasData = false := by rw [← hasData_congr columns, none]
  cases data : column.values with
  | none =>
      have skipped : column.type = .skip := by rw [Column.type, data]
      simp only [addColumn, data, columns, skipped, ne_eq, not_true_eq_false, false_implies,
        and_self]
  | some values =>
      have same : left.addColumn column = right.addColumn column := by
        simp only [addColumn, data, none, other, columns, Bool.false_eq_true, false_and, if_false]
      exact ⟨by rw [same], by rw [same], fun _ => same⟩

section Steps

variable {left right relation next : Relation} {column : Column} {fault : LengthMismatch}

theorem hasData_append (columns : next.columns = relation.columns ++ [column])
    (skipped : column.type = .skip) : next.hasData = relation.hasData := by
  simp [hasData, columns, skipped]

/-- Alike relations give the same answers to an addition and stay alike. -/
theorem Alike.addColumn (alike : left.Alike right) (column : Column) :
    (left.addColumn column).1 = (right.addColumn column).1 ∧
      Alike (left.addColumn column).2 (right.addColumn column).2 := by
  cases held : left.hasData with
  | true =>
      obtain rfl := alike.rows held
      exact ⟨rfl, .refl _⟩
  | false =>
      obtain ⟨answer, columns, same⟩ := addColumn_without_data alike.columns held column
      refine ⟨answer, columns, fun later => ?_⟩
      -- A skipped column leaves the numbers of rows apart, but it leaves no data behind either.
      by_cases skipped : column.type = .skip
      · have none : column.values = none := by
          cases data : column.values with
          | none => rfl
          | some values => exact absurd skipped (Column.type_ne_skip data)
        have kept : (left.addColumn column).2.columns = left.columns ++ [column] := by
          simp only [Relation.addColumn, none]
        rw [hasData_append kept skipped, held] at later
        contradiction
      · rw [same skipped]

/-- A refused column leaves a relation that is alike to the one before. -/
theorem alike_of_refused (refused : relation.addColumn column = (.error fault, next)) :
    next.Alike relation := by
  have outcome := relation.adds_addColumn column
  rw [refused] at outcome
  cases outcome with
  | valueCount data some differs => exact .refl relation
  | bitCount data fits differs =>
      refine ⟨rfl, fun some => ?_⟩
      rw [fits some]

end Steps

/-- What additions lead to is alike to a relation that the accepted columns build. -/
theorem Reached.exists_built {relation : Relation} (reached : relation.Reached) :
    ∃ built, Built built ∧ relation.Alike built := by
  induction reached with
  | empty => exact ⟨.empty, .empty, .refl _⟩
  | @add relation column bits reached represents ih =>
      obtain ⟨built, accepted, alike⟩ := ih
      obtain ⟨answer, later⟩ := alike.addColumn column
      cases result : relation.addColumn column with
      | mk outcome next =>
          cases outcome with
          -- A refused column may move the number of rows, so no more than `Alike` is kept.
          | error fault =>
              have before := alike_of_refused result
              refine ⟨built, accepted, before.columns.trans alike.columns, fun some => ?_⟩
              rw [before.rows some]
              exact alike.rows (by rwa [← hasData_congr before.columns])
          | ok done =>
              rw [result] at answer later
              have added : built.addColumn column = (.ok (), (built.addColumn column).2) :=
                Prod.ext answer.symm rfl
              exact ⟨_, .add column accepted represents added, later⟩

/-- Every data column has a value and a validity bit for each row, whatever was refused before. -/
theorem Reached.sound {relation : Relation} (reached : relation.Reached) : relation.Sound := by
  obtain ⟨built, accepted, alike⟩ := reached.exists_built
  intro column member values data
  obtain rfl := alike.rows (hasData_of_mem member data)
  exact accepted.sound column member values data

/-- Adds columns one after another, whatever comes of each: all answers, and the relation that is
left. -/
def addAll (relation : Relation) : List Column → List (Except LengthMismatch Unit) × Relation
  | [] => ([], relation)
  | column :: rest =>
      let (answer, next) := relation.addColumn column
      let (answers, last) := next.addAll rest
      (answer :: answers, last)

theorem Alike.addAll {left right : Relation} (alike : left.Alike right) (columns : List Column) :
    (left.addAll columns).1 = (right.addAll columns).1 ∧
      Alike (left.addAll columns).2 (right.addAll columns).2 := by
  induction columns generalizing left right with
  | nil => exact ⟨rfl, alike⟩
  | cons column rest ih =>
      obtain ⟨answer, later⟩ := alike.addColumn column
      obtain ⟨answers, last⟩ := ih later
      exact ⟨by simp only [Relation.addAll, answer, answers], last⟩

/-- A refused column leaves the columns as they were.  It changes the number of rows only where no
column has data yet and its own validity bits are not as many as its values, and the number is then
that of these values.  No later addition is answered differently for it, and once a column has data
the relation is the one that it would have been. -/
theorem addColumn_refused {relation next : Relation} {column : Column} {fault : LengthMismatch}
    (refused : relation.addColumn column = (.error fault, next)) :
    next.columns = relation.columns ∧
      (next.tupleCount ≠ relation.tupleCount →
        relation.hasData = false ∧ ∃ values, column.values = some values ∧
          column.validity.length ≠ values.length ∧ next.tupleCount = values.length) ∧
      ∀ later : List Column,
        (next.addAll later).1 = (relation.addAll later).1 ∧
        (next.addAll later).2.columns = (relation.addAll later).2.columns ∧
        ((next.addAll later).2.hasData = true →
          (next.addAll later).2 = (relation.addAll later).2) := by
  have alike := alike_of_refused refused
  refine ⟨alike.columns, fun changed => ?_, fun later => ?_⟩
  · have outcome := relation.adds_addColumn column
    rw [refused] at outcome
    cases outcome with
    | valueCount data some differs => exact absurd rfl changed
    | @bitCount values data fits differs =>
        refine ⟨?_, values, data, differs, rfl⟩
        cases held : relation.hasData with
        | false => rfl
        | true => exact absurd (fits held) changed
  · obtain ⟨answers, last⟩ := alike.addAll later
    exact ⟨answers, last.columns, last.rows⟩

/-- Two values under a single validity bit. -/
def shortValidity : Column := .ofParts "v" (some (.integers [1, 2])) (.ofList [true])

theorem addColumn_refused_shortValidity :
    Relation.empty.addColumn shortValidity =
        (.error ⟨"v (validity)", 2, 1⟩, ⟨[], 2⟩) ∧
      ((⟨[], 2⟩ : Relation).addAll [.present "w" (.integers [5, 6, 7])]).2 =
        (Relation.empty.addAll [.present "w" (.integers [5, 6, 7])]).2 := by
  have refused : Relation.empty.addColumn shortValidity =
      (.error ⟨"v (validity)", 2, 1⟩, ⟨[], 2⟩) := by rfl
  exact ⟨refused, ((addColumn_refused refused).2.2 _).2.2 (by rfl)⟩

/-- The first data column, refused for its validity bits, leaves its number of values behind. -/
theorem not_addColumn_refused_unchanged :
    ¬ ∀ (relation next : Relation) (column : Column) (bits : List Bool) (fault : LengthMismatch),
      relation.Reached → column.validity.Represents bits →
      relation.addColumn column = (.error fault, next) →
      next.columns = relation.columns ∧ next.tupleCount = relation.tupleCount := by
  intro unchanged
  have same := (unchanged .empty ⟨[], 2⟩ shortValidity [true] ⟨"v (validity)", 2, 1⟩ .empty
    (Validity.represents_ofList [true]) rfl).2
  contradiction

end Columnar.Relation
