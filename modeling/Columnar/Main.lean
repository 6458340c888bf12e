import Columnar.CommandLine.Run

namespace Columnar.Program

/-!
The program.

A run is a function of the stores, so what a command can come across is loaded before it: the files
that it may ask for, and the files and directories that stand in the way of what it may write.  The
files that it has written are stored after it.  Neither step decides what the run answers.
-/

/-- The number of a system error in opening a directory as a file. -/
def directoryCode : UInt32 := 21

/-- Adds what segments below a directory lead to, and the directories on the way. -/
def loadBelow (tree : FileTree) (above : List String) : List String → IO FileTree
  | [] => return tree
  | name :: below => do
      let segments := above ++ [name]
      match ← (IO.FS.readBinFile (Location.pathOf segments)).toBaseIO with
      | .ok bytes => return { tree with files := tree.files.put ⟨segments⟩ bytes.toList }
      | .error (.inappropriateType _ code _) =>
          if code = directoryCode then loadBelow (tree.withDirectory ⟨segments⟩) segments below
          else return tree
      | .error _ => return tree

/-- Adds what a location leads to. -/
def loadFile (tree : FileTree) (location : Location) : IO FileTree :=
  loadBelow tree [] location.segments

/-- Adds the parts of a column up to the first that is missing. -/
def loadParts (tree : FileTree) (directory : Location) (column count : Nat) : IO FileTree := do
  let mut loaded := tree
  for index in [0:count] do
    let location := directory.child (StoredFile.part column index).name
    loaded ← loadFile loaded location
    if (loaded.entry? location.segments).isNone then return loaded
  return loaded

/-- Adds the catalog of a directory and the parts that it lists. -/
def loadDirectory (tree : FileTree) (directory : Location) : IO FileTree := do
  let place := directory.child StoredFile.catalog.name
  let mut loaded ← loadFile tree place
  match (loaded.files.get? place).map Catalog.decode with
  | some (.ok catalog) =>
      for (entry, column) in catalog.entries.zipIdx do
        loaded ← loadParts loaded directory column entry.partCount.toNat
      return loaded
  | _ => return loaded

/-- Adds what is in the way of packing so many columns into a directory. -/
def loadTarget (columns : Nat) (tree : FileTree) (directory : Location) : IO FileTree := do
  let mut loaded ← loadFile tree (directory.child StoredFile.catalog.name)
  for column in [0:columns] do
    loaded ← loadFile loaded (directory.child (StoredFile.part column 0).name)
  return loaded

/-- Adds what a path names to the files at hand, if it names files. -/
def load (stores : Stores) (path : String) (add : FileTree → Location → IO FileTree) :
    IO Stores := do
  match stores.resolve path with
  | .ok ⟨.files, location⟩ => return { stores with files := ← add stores.files location }
  | _ => return stores

/-- Loads what a command can come across. -/
def loadFor (stores : Stores) : CommandLine.Command → IO Stores
  | .pack source directory specs => do
      load (← load stores source loadFile) directory (loadTarget specs.length)
  | .unpack directory _ output => do
      load (← load stores directory loadDirectory) output loadFile
  | .info directory => load stores directory loadDirectory

/-- Stores an object as a file, below directories made for it. -/
def storeFile (location : Location) (bytes : Bytes) : IO Unit := do
  IO.FS.createDirAll (Location.pathOf location.segments.dropLast)
  IO.FS.writeBinFile location.path (ByteArray.mk bytes.toArray)

/-- Runs a command line with the files around it. -/
def run (program : String) (arguments : List String) : IO UInt32 := do
  let stores := Stores.empty (← IO.currentDir).toString
  let command? := do
    let flags ← (CommandLine.Flags.read arguments).toOption
    (CommandLine.Command.ofArguments flags.positional).toOption
  let loaded ← match command? with
    | some command => loadFor stores command
    | none => pure stores
  let outcome := CommandLine.run program arguments loaded
  let writes := outcome.stores.files.files.writes
  let written := writes.take (writes.length - loaded.files.files.writes.length)
  for (location, bytes) in written.reverse do
    storeFile location bytes
  IO.print outcome.stdout
  IO.eprint outcome.stderr
  return UInt32.ofNat outcome.code

end Columnar.Program

def main (arguments : List String) : IO UInt32 := Columnar.Program.run "chunkpack" arguments
