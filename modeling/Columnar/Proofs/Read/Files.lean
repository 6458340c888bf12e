import Columnar.Proofs.Errors
import Columnar.Proofs.Store.Agreement
import Columnar.Proofs.Store.Names
import Columnar.Read.Output
import Mathlib.Data.List.TakeWhile

namespace Columnar.Read

/-!
Columns as text files in the memory store.

The texts stand under names of their own, so writing them changes no column, not even one of the
directory that they are written to.  Each column is read as it was before, and the files that are
left are the texts of the columns that can be read.
-/

section Texts

variable {before : Stores} {log : List (Location × Bytes)}

/-- Only texts of columns are written, to whatever directories. -/
def TextsOnly (log : List (Location × Bytes)) : Prop :=
  ∀ write ∈ log, ∃ directory column, write.1 = Location.child directory (StoredFile.text column).name

theorem TextsOnly.append {more : List (Location × Bytes)} (first : TextsOnly log)
    (second : TextsOnly more) : TextsOnly (log ++ more) := by
  intro write member
  rcases List.mem_append.mp member with inside | inside
  · exact first write inside
  · exact second write inside

/-- A file that is no text is read as before. -/
theorem TextsOnly.read (texts : TextsOnly log) {file : StoredFile}
    (other : ∀ column, file ≠ .text column) (directory : Location) :
    (before.putAll .memory log).read ⟨.memory, directory.child file.name⟩ =
      before.read ⟨.memory, directory.child file.name⟩ := by
  have untouched : (before.putAll .memory log).object? ⟨.memory, directory.child file.name⟩ =
      before.object? ⟨.memory, directory.child file.name⟩ := by
    apply Stores.object?_putAll_of_ne
    intro write member here
    obtain ⟨place, column, named⟩ := texts write member
    have same := congrArg Place.location here
    rw [named] at same
    exact other column (StoredFile.eq_of_child same).symm
  have held : (before.putAll .memory log).memory.get? (directory.child file.name) =
      before.memory.get? (directory.child file.name) := untouched
  simp only [Stores.read, held]

theorem TextsOnly.loadCatalog (texts : TextsOnly log) (directory : Location) :
    Columnar.loadCatalog (before.putAll .memory log) ⟨.memory, directory⟩ =
      Columnar.loadCatalog before ⟨.memory, directory⟩ := by
  have read := @TextsOnly.read before log texts .catalog (by simp) directory
  simp only [Columnar.loadCatalog, Place.child, read]

theorem TextsOnly.ofPlace (texts : TextsOnly log) (directory : Location) (column index : Nat) :
    PartReader.ofPlace .standard (before.putAll .memory log) column
        ((Place.mk .memory directory).child (StoredFile.part column index).name) =
      PartReader.ofPlace .standard before column
        ((Place.mk .memory directory).child (StoredFile.part column index).name) := by
  have read := @TextsOnly.read before log texts (.part column index) (by simp) directory
  simp only [PartReader.ofPlace, Place.child, read]

theorem TextsOnly.openParts (texts : TextsOnly log) (directory : Location)
    (column count index : Nat) :
    ColumnReader.openParts .standard (before.putAll .memory log) ⟨.memory, directory⟩ column count
        index =
      ColumnReader.openParts .standard before ⟨.memory, directory⟩ column count index := by
  induction count generalizing index with
  | zero => rfl
  | succ count ih => simp only [ColumnReader.openParts, texts.ofPlace, ih]

end Texts

/-- The text of a column of a directory, with the number of its rows. -/
def text (stores : Stores) (path : String) (column : Nat) : Except Error (Nat × String) :=
  Read.column stores path column .text ""

/-- A directory to read, and one to write to, in the memory store whatever it holds. -/
structure Located (path output : String) (source target : Location) : Prop where
  source : ∀ stores : Stores, stores.resolve path = .ok ⟨.memory, source⟩
  target : ∀ (stores : Stores) (column : Nat), stores.resolve (outputPath output column) =
    .ok ⟨.memory, target.child (StoredFile.text column).name⟩

/-- Behind a scheme the slashes at the end are dropped as they are without it. -/
theorem outputPath_scheme {key : String} (named : ∃ char ∈ key.toList, char ≠ '/') (scheme : String)
    (column : Nat) :
    outputPath (scheme ++ key) column =
      scheme ++
        (String.ofList (key.toList.reverse.dropWhile (· = '/')).reverse ++ "/" ++
          (StoredFile.text column).name) := by
  have some : (key.toList.reverse.dropWhile (· = '/')).isEmpty = false := by
    obtain ⟨char, member, differs⟩ := named
    rw [List.isEmpty_eq_false_iff, ne_eq, List.dropWhile_eq_nil_iff]
    intro slashes
    exact differs (of_decide_eq_true (slashes char (List.mem_reverse.mpr member)))
  rw [outputPath, String.toList_append, List.reverse_append, List.dropWhile_append, some,
    if_neg Bool.false_ne_true, List.reverse_append, List.reverse_reverse, String.ofList_append,
    String.ofList_toList, String.append_assoc, String.append_assoc, String.append_assoc]

/-- Behind a slash at its end a path in the memory store names the same directory, as long as it has
something else to name. -/
theorem located_memory (source : String) {target : String}
    (named : ∃ char ∈ target.toList, char ≠ '/') :
    Located (Place.memoryScheme ++ source) (Place.memoryScheme ++ target) (.ofPath source)
      (.ofPath target) := by
  refine ⟨fun stores => stores.resolve_memory source, fun stores column => ?_⟩
  rw [outputPath_scheme named, Stores.resolve_memory, Location.ofPath_name, Location.ofPath_trimmed]

section Sequence

variable {path output : String} {source target : Location} {before : Stores}
  {log : List (Location × Bytes)}

theorem TextsOnly.text (texts : TextsOnly log) (located : Located path output source target)
    (column : Nat) :
    Read.text (before.putAll .memory log) path column = Read.text before path column := by
  simp only [Read.text, Read.column, ColumnReader.ofPath, located.source, mapError_ok, bind,
    Except.bind, texts.loadCatalog, ColumnReader.ofCatalog, texts.openParts]

/-- The file of a column's text. -/
def textFile (target : Location) (column : Nat) (text : String) : Location × Bytes :=
  (target.child (StoredFile.text column).name, Text.encode text)

theorem intoFile_eq (located : Located path output source target) (stores : Stores)
    (column : Nat) :
    intoFile stores path column (outputPath output column) =
      (Read.text stores path column).map fun read =>
        (read.1, stores.putAll .memory [textFile target column read.2]) := by
  simp only [intoFile, Read.text, bind, Except.bind]
  cases Read.column stores path column .text "" with
  | error error => rfl
  | ok read =>
      simp only [writePath, located.target, mapError_ok, bind, Except.bind, Stores.write_memory]
      rfl

/-- The texts that can be read, as files. -/
def textFiles (before : Stores) (path : String) (target : Location) (requests : List Nat) :
    List (Location × Bytes) :=
  requests.filterMap fun column =>
    (Read.text before path column).toOption.map fun read => textFile target column read.2

def rowCounts (before : Stores) (path : String) (requests : List Nat) : List (Nat × Nat) :=
  requests.filterMap fun column =>
    (Read.text before path column).toOption.map fun read => (column, read.1)

def failure? (before : Stores) (path : String) (column : Nat) : Option ColumnFailure :=
  match Read.text before path column with
  | .ok _ => none
  | .error error => some ⟨column, error⟩

theorem intoFilesFrom_eq (located : Located path output source target) (texts : TextsOnly log)
    (requests : List Nat) :
    intoFilesFrom path output (before.putAll .memory log) requests =
      (before.putAll .memory (log ++ textFiles before path target requests),
        rowCounts before path requests, requests.filterMap (failure? before path)) := by
  induction requests generalizing log with
  | nil => simp [intoFilesFrom, textFiles, rowCounts]
  | cons column rest ih =>
      rw [intoFilesFrom, intoFile_eq located, texts.text located]
      cases read : Read.text before path column with
      | error error =>
          simp only [Except.map, ih texts, textFiles, rowCounts, failure?, List.filterMap_cons, read,
            Except.toOption, Option.map_none]
      | ok found =>
          have more : TextsOnly [textFile target column found.2] := by
            intro write member
            rw [List.mem_singleton.mp member]
            exact ⟨target, column, rfl⟩
          simp only [Except.map, ← Stores.putAll_append, ih (texts.append more), textFiles,
            rowCounts, failure?, List.filterMap_cons, read, Except.toOption, Option.map_some,
            List.append_assoc, List.singleton_append]

theorem intoFiles_eq (located : Located path output source target) (before : Stores)
    (requests : List Nat) :
    intoFiles before path requests output =
      (match requests.filterMap (failure? before path) with
        | [] => .ok (rowCounts before path requests)
        | failures =>
            .error (.columns (failures.mergeSort fun left right => left.column ≤ right.column)),
        before.putAll .memory (textFiles before path target requests)) := by
  have none : TextsOnly [] := by
    intro write member
    contradiction
  have whole : intoFilesFrom path output before requests =
      (before.putAll .memory (textFiles before path target requests),
        rowCounts before path requests, requests.filterMap (failure? before path)) :=
    intoFilesFrom_eq located none requests
  rw [intoFiles, whole]
  dsimp only
  cases requests.filterMap (failure? before path) with
  | nil => rfl
  | cons failure rest => rfl

end Sequence

/-- Registering an object cannot fail: its path leads to the bytes, and all other objects stay. -/
theorem registerFile_ok (stores : Stores) (key : String) (bytes : Bytes) :
    ∃ path after place, registerFile stores key bytes = .ok (path, after) ∧
      after.resolve path = .ok place ∧ after.read place = .ok bytes ∧
      ∀ other, other ≠ place → after.object? other = stores.object? other := by
  unfold registerFile
  generalize String.ofList (key.toList.dropWhile (· = '/')) = name
  refine ⟨Place.memoryScheme ++ name, stores.put ⟨.memory, .ofPath name⟩ bytes,
    ⟨.memory, .ofPath name⟩, ?_, Stores.resolve_memory .., ?_, fun other differs =>
      Stores.object?_put_of_ne differs.symm⟩
  · simp only [writePath, stores.resolve_memory, mapError_ok, bind, Except.bind]
    rfl
  · have kept : (stores.put ⟨.memory, .ofPath name⟩ bytes).memory.get? (.ofPath name) = some bytes :=
      (Objects.get?_put ..).trans (if_pos rfl)
    simp only [Stores.read, kept]

end Columnar.Read
