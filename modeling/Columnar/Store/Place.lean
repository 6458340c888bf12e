import Columnar.Store.BucketUrl
import Columnar.Store.FileTree

namespace Columnar

/-!
Places: what a path names.

A path names a location in one of three kinds of store.  Behind `memory://` stands a key of the
memory store, behind `s3://` a bucket and a key, and any other path names a file, a relative one
below the current directory.
-/

inductive StoreKind where
  | memory
  | files
  | bucket (name : String) (anonymous : Bool)
deriving DecidableEq, Repr

structure Place where
  store : StoreKind
  location : Location
deriving DecidableEq, Repr

/-- Why a path names no place. -/
inductive PathFault where
  | noBucket (path : String)
  | url (fault : Store.UrlFault)
deriving DecidableEq, Repr

def PathFault.message : PathFault → String
  | .noBucket path => s!"invalid store path: no bucket in S3 URL '{path}'"
  | .url fault => fault.message

namespace Place

def memoryScheme : String := "memory://"

def bucketScheme : String := "s3://"

/-- What follows a scheme in a path that begins with it. -/
def afterScheme? (scheme path : String) : Option (List Char) :=
  if scheme.toList.isPrefixOf path.toList then some (path.toList.drop scheme.length) else none

/-- The absolute form of a path: one without a slash in front lies below the directory. -/
def absolute (directory path : String) : String :=
  if path.toList.head? = some '/' then path else directory ++ "/" ++ path

/-- The place that a path names, seen from a current directory. -/
def ofPath (directory path : String) : Except PathFault Place :=
  match afterScheme? bucketScheme path with
  | some rest =>
      match Store.BucketUrl.read rest with
      | .error fault => .error (.url fault)
      | .ok url =>
          if url.host = "" then .error (.noBucket path)
          else .ok ⟨.bucket url.host url.isAnonymous, .ofPath url.key⟩
  | none =>
      match afterScheme? memoryScheme path with
      | some key => .ok ⟨.memory, .ofPath (String.ofList key)⟩
      | none => .ok ⟨.files, .ofPath (absolute directory path)⟩

/-- The place of a name inside a directory. -/
def child (place : Place) (name : String) : Place :=
  { place with location := place.location.child name }

end Place

/-- The stores that a program works with, and its current directory. -/
structure Stores where
  directory : String
  memory : Objects
  files : FileTree

/-- Why no object was read or written. -/
inductive AccessFault where
  | notFound (location : Location)
  | file (fault : FileFault)
  | unreachable (bucket : String)
deriving DecidableEq, Repr

def AccessFault.message : AccessFault → String
  | .notFound location =>
      s!"Object at location {location.text} not found: No data in memory found. " ++
        s!"Location: {location.text}"
  | .file fault => fault.message
  | .unreachable bucket => s!"bucket {bucket} cannot be reached"

namespace Stores

/-- Stores without any object. -/
def empty (directory : String) : Stores := ⟨directory, .empty, .empty⟩

def resolve (stores : Stores) (path : String) : Except PathFault Place :=
  Place.ofPath stores.directory path

def read (stores : Stores) (place : Place) : Except AccessFault Bytes :=
  match place.store with
  | .memory =>
      match stores.memory.get? place.location with
      | some bytes => .ok bytes
      | none => .error (.notFound place.location)
  | .files => (stores.files.read place.location).mapError .file
  | .bucket name _ => .error (.unreachable name)

/-- Why a store takes no object at a location, if it takes none. -/
def refusal? (stores : Stores) (kind : StoreKind) (location : Location) : Option AccessFault :=
  match kind with
  | .memory => none
  | .files => (stores.files.refusal? location).map .file
  | .bucket name _ => some (.unreachable name)

/-- Keeps an object at a place. -/
def put (stores : Stores) (place : Place) (bytes : Bytes) : Stores :=
  match place.store with
  | .memory => { stores with memory := stores.memory.put place.location bytes }
  | .files => { stores with files := stores.files.put place.location bytes }
  | .bucket .. => stores

/-- Keeps objects in one store, one after another. -/
def putAll (stores : Stores) (kind : StoreKind) (writes : List (Location × Bytes)) : Stores :=
  writes.foldl (fun stores entry => stores.put ⟨kind, entry.1⟩ entry.2) stores

/-- Writes an object, unless its store refuses it. -/
def write (stores : Stores) (place : Place) (bytes : Bytes) : Except AccessFault Stores :=
  match stores.refusal? place.store place.location with
  | some fault => .error fault
  | none => .ok (stores.put place bytes)

end Stores

end Columnar
