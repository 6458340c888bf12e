import Columnar.Proofs.Moves
import Columnar.Proofs.Read.Files

namespace Columnar

/-!
Writing columns as text with one task a request.

Tasks advance in any order, a step at a time, and a step reads or writes at most one object.  So the
stores may change between the catalog and the parts that a task reads, and between those and its own
file.  A task that has ended is joined, in any order too, and known by its id alone.  When all are
joined the failures are listed, or the rows of each request.
-/

/-- Checks the parts that were opened for a column against its catalog. -/
def ColumnReader.ofParts (directory : Place) (catalog : Catalog) (column : Nat) (type : ColumnType)
    (parts : List PartReader) : Except Error ColumnReader :=
  match parts.find? fun part => part.type ≠ type with
  | some part => .error (.unreadablePart column part.path (.partType part.type type))
  | none =>
      let stored := total (parts.map PartReader.chunkCount)
      if stored ≠ catalog.chunkCount.toNat then
        .error (.unreadablePart column directory.location.text
          (.chunkTotal parts.length stored catalog.chunkCount.toNat))
      else .ok ⟨column, type, stored, parts.toArray⟩

namespace Read

/-- What the requests of one run are.  The ids are those of the tasks, request by request; a column
may be requested more than once. -/
structure Job where
  path : String
  output : String
  requests : List Nat
  ids : List Nat

def Job.columnOf? (job : Job) (id : Nat) : Option Nat := do
  let index ← job.ids.idxOf? id
  job.requests[index]?

/-- A column that the catalog has. -/
structure Found where
  directory : Place
  catalog : Catalog
  type : ColumnType
  entry : CatalogEntry

def find (stores : Stores) (path : String) (column : Nat) : Except Error Found := do
  let directory ← (stores.resolve path).mapError .path
  let catalog ← loadCatalog stores directory
  let (type, entry) ← ColumnReader.dataType catalog column
  return { directory, catalog, type, entry }

namespace Found

def partCount (found : Found) : Nat := found.entry.partCount.toNat

/-- The text of a column whose parts are open. -/
def text (found : Found) (column : Nat) (parts : List PartReader) : Except Error (Nat × String) := do
  let reader ← ColumnReader.ofParts found.directory found.catalog column found.type parts
  reader.materialize .standard .text ""

end Found

/-- Where a task stands: in front of the catalog, behind some of its parts, in front of its file, or
at its end. -/
inductive Task where
  | opening
  | reading (found : Found) (parts : List PartReader)
  | writing (rows : Nat) (text : String)
  | ended (result : Except Error Nat)

namespace Task

/-- The next step of a task over the stores, unless it has ended. -/
def step? (job : Job) (column : Nat) (stores : Stores) : Task → Option (Stores × Task)
  | .opening =>
      match find stores job.path column with
      | .error error => some (stores, .ended (.error error))
      | .ok found => some (stores, .reading found [])
  | .reading found parts =>
      if parts.length < found.partCount then
        match PartReader.ofPlace .standard stores column
            (found.directory.child (StoredFile.part column parts.length).name) with
        | .error error => some (stores, .ended (.error error))
        | .ok part => some (stores, .reading found (parts ++ [part]))
      else
        match found.text column parts with
        | .error error => some (stores, .ended (.error error))
        | .ok (rows, text) => some (stores, .writing rows text)
  | .writing rows text =>
      match writePath stores (outputPath job.output column) (Text.encode text) with
      | .error error => some (stores, .ended (.error error))
      | .ok written => some (written, .ended (.ok rows))
  | .ended _ => none

/-- The most steps that a task can still take. -/
def remaining : Task → Nat
  | .opening => maxWord + 3
  | .reading found parts => found.partCount - parts.length + 2
  | .writing _ _ => 1
  | .ended _ => 0

end Task

/-- A run under way.  A task that is joined leaves the rows of its column, or a failure. -/
structure Session where
  stores : Stores
  tasks : List Task
  unjoined : List Nat
  rows : List (Nat × Nat)
  failures : List ColumnFailure

inductive Stage where
  | working (session : Session)
  | ended (stores : Stores) (result : Except RunError (List (Nat × Nat)))

inductive Move where
  | advance (index : Nat)
  | join (index : Nat)
  | conclude
deriving DecidableEq, Repr

namespace Job

def start (job : Job) (stores : Stores) : Session where
  stores
  tasks := List.replicate job.requests.length .opening
  unjoined := List.range job.requests.length
  rows := []
  failures := []

def advance? (job : Job) (index : Nat) (session : Session) : Option Session := do
  let task ← session.tasks[index]?
  let column ← job.requests[index]?
  let (stores, next) ← task.step? job column session.stores
  return { session with stores, tasks := session.tasks.set index next }

def collect (job : Job) (id : Nat) (result : Except Error Nat) (session : Session) : Session :=
  match result with
  | .ok rows =>
      match job.columnOf? id with
      | some column => { session with rows := (column, rows) :: session.rows }
      | none => session
  | .error error =>
      let failure : ColumnFailure := ⟨(job.columnOf? id).getD 0, error⟩
      { session with failures := session.failures ++ [failure] }

def join? (job : Job) (index : Nat) (session : Session) : Option Session :=
  if index ∈ session.unjoined then
    match session.tasks[index]?, job.ids[index]? with
    | some (.ended result), some id =>
        some (job.collect id result { session with unjoined := session.unjoined.erase index })
    | _, _ => none
  else none

def conclude? (job : Job) (session : Session) : Option Stage :=
  if session.unjoined = [] then
    match session.failures with
    | [] =>
        let counts := job.requests.map fun column => (column, (session.rows.lookup column).getD 0)
        some (.ended session.stores (.ok counts))
    | failures =>
        let sorted := failures.mergeSort fun left right => left.column ≤ right.column
        some (.ended session.stores (.error (.columns sorted)))
  else none

def move? (job : Job) (move : Move) : Stage → Option Stage
  | .ended _ _ => none
  | .working session =>
      match move with
      | .advance index => (job.advance? index session).map .working
      | .join index => (job.join? index session).map .working
      | .conclude => job.conclude? session

/-- The stage behind moves, made one after another from the start. -/
def after? (job : Job) (before : Stores) (moves : List Move) : Option Stage :=
  Moves.after? job.move? (.working (job.start before)) moves

end Job

def Session.remaining (session : Session) : Nat :=
  total (session.tasks.map Task.remaining) + session.unjoined.length + 1

def Stage.remaining : Stage → Nat
  | .working session => session.remaining
  | .ended _ _ => 0

section Reading

variable {stores : Stores} {path : String} {column : Nat} {directory : Place} {found : Found}
  {parts : List PartReader} {part : PartReader} {error : Error}

theorem ofCatalog_eq (stores : Stores) (directory : Place) (catalog : Catalog) (column : Nat) :
    ColumnReader.ofCatalog .standard stores directory catalog column = (do
      let (type, entry) ← ColumnReader.dataType catalog column
      let parts ← ColumnReader.openParts .standard stores directory column entry.partCount.toNat 0
      ColumnReader.ofParts directory catalog column type parts) := rfl

/-- A text is read in the steps of a task. -/
theorem text_eq (stores : Stores) (path : String) (column : Nat) :
    text stores path column = (do
      let found ← find stores path column
      let parts ← ColumnReader.openParts .standard stores found.directory column found.partCount 0
      found.text column parts) := by
  simp only [text, Read.column, ColumnReader.ofPath, find, ofCatalog_eq, Found.text, bind_assoc,
    pure_bind]
  rfl

theorem openParts_succ (stores : Stores) (directory : Place) (column count index : Nat) :
    ColumnReader.openParts .standard stores directory column (count + 1) index = (do
      let parts ← ColumnReader.openParts .standard stores directory column count index
      let part ← PartReader.ofPlace .standard stores column
        (directory.child (StoredFile.part column (index + count)).name)
      return parts ++ [part]) := by
  induction count generalizing index with
  | zero =>
      simp only [ColumnReader.openParts, bind, Except.bind, Nat.add_zero, List.nil_append]
      cases PartReader.ofPlace .standard stores column
        (directory.child (StoredFile.part column index).name) <;> rfl
  | succ count ih =>
      rw [ColumnReader.openParts, ih, ColumnReader.openParts]
      have place : index + 1 + count = index + (count + 1) := by omega
      rw [place]
      cases PartReader.ofPlace .standard stores column
          (directory.child (StoredFile.part column index).name) with
      | error error => rfl
      | ok first =>
          simp only [bind, Except.bind]
          cases ColumnReader.openParts .standard stores directory column count (index + 1) with
          | error error => rfl
          | ok rest =>
              simp only []
              cases PartReader.ofPlace .standard stores column
                (directory.child (StoredFile.part column (index + (count + 1))).name) <;> rfl

/-- The first part that cannot be opened is the end, however many are behind it. -/
theorem openParts_error {count more index : Nat}
    (failed : ColumnReader.openParts .standard stores directory column count index = .error error)
    (behind : count ≤ more) :
    ColumnReader.openParts .standard stores directory column more index = .error error := by
  induction more, behind using Nat.le_induction with
  | base => exact failed
  | succ more _ ih =>
      rw [openParts_succ, ih]
      rfl

theorem openParts_push
    (opened : ColumnReader.openParts .standard stores directory column parts.length 0 = .ok parts)
    (next : PartReader.ofPlace .standard stores column
      (directory.child (StoredFile.part column parts.length).name) = .ok part) :
    ColumnReader.openParts .standard stores directory column (parts ++ [part]).length 0 =
      .ok (parts ++ [part]) := by
  rw [List.length_append, List.length_singleton, openParts_succ, opened, Nat.zero_add]
  simp only [bind, Except.bind, next]
  rfl

theorem text_of_find_error (absent : find stores path column = .error error) :
    text stores path column = .error error := by
  rw [text_eq, absent]
  rfl

theorem text_of_part_error (known : find stores path column = .ok found)
    (opened : ColumnReader.openParts .standard stores found.directory column parts.length 0 =
      .ok parts)
    (more : parts.length < found.partCount)
    (failed : PartReader.ofPlace .standard stores column
      (found.directory.child (StoredFile.part column parts.length).name) = .error error) :
    text stores path column = .error error := by
  have stopped : ColumnReader.openParts .standard stores found.directory column
      (parts.length + 1) 0 = .error error := by
    rw [openParts_succ, opened, Nat.zero_add]
    simp only [bind, Except.bind, failed]
  rw [text_eq, known]
  simp only [bind, Except.bind, openParts_error stopped more]

theorem text_of_parts (known : find stores path column = .ok found)
    (opened : ColumnReader.openParts .standard stores found.directory column found.partCount 0 =
      .ok parts) : text stores path column = found.text column parts := by
  rw [text_eq, known]
  simp only [bind, Except.bind, opened]

end Reading

end Read

end Columnar
