import Columnar.Column.Kind
import Columnar.Bytes

namespace Columnar

/-!
Catalogs.

The catalog of a packed relation is a sequence of 32-bit words: the number of columns, the number of
chunks that every data column has, and for each column its type tag and its number of parts.
-/

structure CatalogEntry where
  typeTag : UInt32
  partCount : UInt32
deriving DecidableEq, Repr

structure Catalog where
  chunkCount : UInt32
  entries : List CatalogEntry
deriving DecidableEq, Repr

/-- Why bytes are no catalog. -/
inductive CatalogFault where
  | shortHeader (bytes : Nat)
  | entryBytes (columns expected found : Nat)
deriving DecidableEq, Repr

def CatalogFault.message : CatalogFault → String
  | .shortHeader bytes => s!"{bytes} bytes is shorter than the 8 byte header"
  | .entryBytes columns expected found =>
      s!"{columns} columns need {expected} entry bytes, found {found}"

namespace CatalogEntry

def ofType (type : ColumnType) (partCount : UInt32) : CatalogEntry := ⟨type.tag, partCount⟩

def type? (entry : CatalogEntry) : Option ColumnType := ColumnType.ofTag? entry.typeTag

/-- Whether the column has parts to read. -/
def hasData (entry : CatalogEntry) : Bool :=
  match entry.type? with
  | none | some .skip => false
  | some _ => true

end CatalogEntry

namespace Catalog

def columnCount (catalog : Catalog) : Nat := catalog.entries.length

/-- The words of a catalog in order. -/
def toWords (catalog : Catalog) : List UInt32 :=
  UInt32.ofNat catalog.columnCount :: catalog.chunkCount ::
    catalog.entries.flatMap fun entry => [entry.typeTag, entry.partCount]

def encode (catalog : Catalog) : Bytes := catalog.toWords.flatMap Bytes.ofUInt32

/-- The first `count` entries of a byte string. -/
def readEntries : Nat → Bytes → List CatalogEntry
  | 0, _ => []
  | count + 1, bytes =>
      ⟨UInt32.ofNat (Bytes.toNat (bytes.take 4)),
        UInt32.ofNat (Bytes.toNat ((bytes.drop 4).take 4))⟩ :: readEntries count (bytes.drop 8)

def decode (bytes : Bytes) : Except CatalogFault Catalog :=
  if bytes.length < 8 then .error (.shortHeader bytes.length)
  else
    let columns := Bytes.toNat (bytes.take 4)
    let chunks := Bytes.toNat ((bytes.drop 4).take 4)
    let rest := bytes.drop 8
    if rest.length ≠ columns * 8 then .error (.entryBytes columns (columns * 8) rest.length)
    else .ok ⟨UInt32.ofNat chunks, readEntries columns rest⟩

end Catalog

/-- The files in the directory of a packed relation, and those with a column's text. -/
inductive StoredFile where
  | catalog
  | part (column index : Nat)
  | text (column : Nat)
deriving DecidableEq, Repr

def StoredFile.name : StoredFile → String
  | .catalog => "metadata"
  | .part column index => s!"column{column}_part{index}"
  | .text column => s!"column{column}.txt"

end Columnar
