import Columnar.Chunk.Cascade
import Columnar.Read.Column

namespace Columnar

/-!
Columns of a packed directory as values, as text and as files.

A file is written only after every row of its column has been read, so a failure leaves what was
there.
-/

namespace Read

/-- Hands a column of a directory to a sink. -/
def column {σ : Type} (stores : Stores) (path : String) (index : Nat) (sink : Sink σ) (state : σ) :
    Except Error (Nat × σ) := do
  let reader ← ColumnReader.ofPath .standard stores path index
  reader.materialize .standard sink state

def integers (stores : Stores) (path : String) (index : Nat) : Except Error (Array Int32) :=
  (column stores path index .integers #[]).map (·.2)

def doubles (stores : Stores) (path : String) (index : Nat) : Except Error (Array Double) :=
  (column stores path index .doubles #[]).map (·.2)

def strings (stores : Stores) (path : String) (index : Nat) : Except Error (Array String) :=
  (column stores path index .strings #[]).map (·.2)

def array (stores : Stores) (path : String) (index : Nat) : Except Error NullableArray := do
  let (_, built) ← column stores path index .array none
  Sink.toArray built

/-- Writes the object that a path names. -/
def writePath (stores : Stores) (path : String) (bytes : Bytes) : Except Error Stores := do
  let place ← (stores.resolve path).mapError .path
  (stores.write place bytes).mapError .access

/-- Writes an object of the memory store, and gives the path of it.  Slashes in front of its key are
dropped. -/
def registerFile (stores : Stores) (key : String) (bytes : Bytes) :
    Except Error (String × Stores) := do
  let path := Place.memoryScheme ++ String.ofList (key.toList.dropWhile (· = '/'))
  let written ← writePath stores path bytes
  return (path, written)

/-- Writes a column as text, one row a line, and counts the rows. -/
def intoFile (stores : Stores) (path : String) (index : Nat) (output : String) :
    Except Error (Nat × Stores) := do
  let (rows, text) ← column stores path index .text ""
  let written ← writePath stores output (Text.encode text)
  return (rows, written)

/-- The path of a column's text in a directory. -/
def outputPath (directory : String) (index : Nat) : String :=
  let trimmed := (directory.toList.reverse.dropWhile (· = '/')).reverse
  String.ofList trimmed ++ "/" ++ (StoredFile.text index).name

/-- Writes columns one after another and collects the number of rows of each, and the failures. -/
def intoFilesFrom (path directory : String) :
    Stores → List Nat → Stores × List (Nat × Nat) × List ColumnFailure
  | stores, [] => (stores, [], [])
  | stores, index :: rest =>
      match intoFile stores path index (outputPath directory index) with
      | .ok (rows, written) =>
          let (after, counts, failures) := intoFilesFrom path directory written rest
          (after, (index, rows) :: counts, failures)
      | .error error =>
          let (after, counts, failures) := intoFilesFrom path directory stores rest
          (after, counts, ⟨index, error⟩ :: failures)

/-- Writes columns as text into a directory.  Those that can be read are written even when others
fail; failures are listed by column. -/
def intoFiles (stores : Stores) (path : String) (indices : List Nat) (directory : String) :
    Except RunError (List (Nat × Nat)) × Stores :=
  let (after, counts, failures) := intoFilesFrom path directory stores indices
  match failures with
  | [] => (.ok counts, after)
  | _ =>
      let sorted := failures.mergeSort fun left right => left.column ≤ right.column
      (.error (.columns sorted), after)

end Read

end Columnar
