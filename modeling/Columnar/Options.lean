namespace Columnar

/-!
Settings for reading delimited text and for packing.

`PackOptions.validate` says which settings can be packed with: a chunk holds between one row and as
many as a 32-bit word counts, and a part has room for at least one byte.
-/

/-- How delimited text is laid out: the byte between fields, and whether the first record is a
header. -/
structure TextFormat where
  delimiter : UInt8 := 0x2C
  header : Bool := false
deriving DecidableEq, Repr

structure PackOptions where
  chunkRows : Nat := 9999
  partMaxBytes : Nat := 16777216
  format : TextFormat := {}
  cascadeDepth : Nat := 3
  verify : Bool := false
deriving DecidableEq, Repr

/-- The largest number that a 32-bit word holds. -/
def maxWord : Nat := 4294967295

/-- A setting, a column specification or the use of a sink that makes no sense. -/
inductive ConfigFault where
  | chunkRowsZero
  | chunkRowsTooLarge (chunkRows : Nat)
  | partBytesZero
  | tooManyChunks (chunks : Nat)
  | columnSpec (spec : String)
  | arrayNotBegun
  | arrayNeverBegun
deriving DecidableEq, Repr

def ConfigFault.message : ConfigFault → String
  | .chunkRowsZero => "chunk_rows must be at least 1"
  | .chunkRowsTooLarge chunkRows => s!"chunk_rows must be at most {maxWord}, got {chunkRows}"
  | .partBytesZero => "part_max_bytes must be at least 1"
  | .tooManyChunks chunks =>
      s!"{chunks} chunks per column exceed the catalog's u32 chunk count; raise chunk_rows"
  | .columnSpec spec => s!"column '{spec}' is not of the form name:type"
  | .arrayNotBegun => "ArrowSink used before begin_column"
  | .arrayNeverBegun => "ArrowSink finished before begin_column"

def PackOptions.validate (options : PackOptions) : Except ConfigFault Unit :=
  if options.chunkRows = 0 then .error .chunkRowsZero
  else if maxWord < options.chunkRows then .error (.chunkRowsTooLarge options.chunkRows)
  else if options.partMaxBytes = 0 then .error .partBytesZero
  else .ok ()

end Columnar
