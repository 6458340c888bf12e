import Columnar.Store.Objects

namespace Columnar

/-!
Files and directories below a root.

A tree keeps the bytes of its files and the directories that there are; what lies above a directory
is a directory too.  A location leads to an entry segment by segment, and every segment but the last
has to name a directory.  A write makes the directories that are missing above its file; it is
refused where a file stands above, and where the location names a directory.
-/

namespace Location

/-- Whether a location ends in a letter and a colon, as the name of a drive does. -/
def namesDrive (location : Location) : Bool :=
  match (location.segments.getLastD "").toList.reverse with
  | ':' :: letter :: _ => letter.isAlpha
  | _ => false

/-- The path below the root that a list of segments stands for. -/
def pathOf (segments : List String) : String := "/" ++ "/".intercalate segments

/-- The path of the file at a location.  What names a drive is followed by a slash. -/
def path (location : Location) : String :=
  pathOf location.segments ++ if location.namesDrive then "/" else ""

end Location

/-- Why a path does not lead where it should. -/
inductive SystemFault where
  | noEntry
  | notDirectory
  | isDirectory
  | nameTooLong
deriving DecidableEq, Repr

def SystemFault.message : SystemFault → String
  | .noEntry => "No such file or directory (os error 2)"
  | .notDirectory => "Not a directory (os error 20)"
  | .isDirectory => "Is a directory (os error 21)"
  | .nameTooLong => "File name too long (os error 36)"

/-- Why a file is not read or written. -/
inductive FileFault where
  | unnamed
  | missing (path : String)
  | directory (path : String)
  | unopened (path : String) (fault : SystemFault)
  | noParent (path : String) (fault : SystemFault)
  | unplaced (fault : SystemFault)
deriving DecidableEq, Repr

namespace FileFault

/-- The wording of a fault that is not about an absent object. -/
def generic (text : String) : String := "Generic LocalFileSystem error: " ++ text

def message : FileFault → String
  | .unnamed => generic "Filenames containing trailing '/#\\d+/' are not supported: "
  | .missing path => s!"Object at location {path} not found: {SystemFault.noEntry.message}"
  | .directory path => s!"Object at location {path} not found: is directory"
  | .unopened path fault => generic s!"Unable to open file {path}: {fault.message}"
  | .noParent path fault => generic s!"Unable to create dir {path}: {fault.message}"
  | .unplaced fault => generic s!"Unable to rename file: {fault.message}"

end FileFault

structure FileTree where
  files : Objects
  directories : List Location

namespace FileTree

/-- What a path can lead to. -/
inductive Entry where
  | file (bytes : Bytes)
  | directory
deriving DecidableEq, Repr

def empty : FileTree := ⟨.empty, []⟩

/-- Whether the segments name the root or a directory that is known. -/
def isDirectory (tree : FileTree) (segments : List String) : Bool :=
  segments.isEmpty ||
    tree.directories.any fun directory => segments.isPrefixOf directory.segments

/-- The tree with a directory and all those above it. -/
def withDirectory (tree : FileTree) (location : Location) : FileTree :=
  if tree.isDirectory location.segments then tree
  else { tree with directories := location :: tree.directories }

def entry? (tree : FileTree) (segments : List String) : Option Entry :=
  if tree.isDirectory segments then some .directory
  else (tree.files.get? ⟨segments⟩).map .file

/-- The largest number of bytes in a segment. -/
def maxName : Nat := 255

/-- The largest number of bytes in a path. -/
def maxPath : Nat := 4095

def tooLong (name : String) : Bool := maxName < name.utf8ByteSize

/-- Follows segments from an entry on. -/
def follow (tree : FileTree) : List String → List String → Except SystemFault Entry
  | above, [] =>
      match tree.entry? above with
      | some entry => .ok entry
      | none => .error .noEntry
  | above, name :: below =>
      match tree.entry? above with
      | none => .error .noEntry
      | some (.file _) => .error .notDirectory
      | some .directory =>
          if tooLong name then .error .nameTooLong else follow tree (above ++ [name]) below

/-- The entry that segments lead to from the root. -/
def find (tree : FileTree) (segments : List String) : Except SystemFault Entry :=
  if maxPath < (Location.pathOf segments).utf8ByteSize then .error .nameTooLong
  else tree.follow [] segments

/-- The bytes of a file. -/
def read (tree : FileTree) (location : Location) : Except FileFault Bytes :=
  if location.segments = [] then .error .unnamed
  else
    match tree.find location.segments with
    | .ok (.file bytes) =>
        if location.namesDrive then .error (.unopened location.path .notDirectory) else .ok bytes
    | .ok .directory => .error (.directory location.path)
    | .error .noEntry => .error (.missing location.path)
    | .error fault => .error (.unopened location.path fault)

/-- The directory and the name under which a file is written before it takes its place. -/
def staged (location : Location) : List String × String :=
  if location.namesDrive then (location.segments, "#1")
  else (location.segments.dropLast, location.segments.getLastD "" ++ "#1")

/-- Why a file that has been written does not take its place, if it does not. -/
def placement? (tree : FileTree) (location : Location) : Option FileFault :=
  if location.namesDrive then some (.unplaced .notDirectory)
  else if tree.isDirectory location.segments then some (.unplaced .isDirectory)
  else none

/-- Why a file is not written, if it is not. -/
def refusal? (tree : FileTree) (location : Location) : Option FileFault :=
  let (parent, name) := staged location
  let path := location.path ++ "#1"
  if location.segments = [] then some .unnamed
  else
    match tree.find (parent ++ [name]) with
    | .error .noEntry =>
        if parent.any tooLong then some (.noParent (Location.pathOf parent) .nameTooLong)
        else if tooLong name then some (.unopened path .nameTooLong)
        else tree.placement? location
    | .error fault => some (.unopened path fault)
    | .ok _ => tree.placement? location

/-- Keeps a file, below directories made for it. -/
def put (tree : FileTree) (location : Location) (bytes : Bytes) : FileTree :=
  { tree.withDirectory ⟨location.segments.dropLast⟩ with files := tree.files.put location bytes }

theorem isDirectory_of_isPrefix {tree : FileTree} {above segments : List String}
    (leading : above <+: segments) (known : tree.isDirectory segments = true) :
    tree.isDirectory above = true := by
  simp only [isDirectory, Bool.or_eq_true, List.any_eq_true, List.isPrefixOf_iff_prefix,
    List.isEmpty_iff] at known ⊢
  rcases known with root | ⟨directory, member, inside⟩
  · exact .inl (List.prefix_nil.mp (root ▸ leading))
  · exact .inr ⟨directory, member, leading.trans inside⟩

theorem isDirectory_withDirectory (tree : FileTree) (location : Location)
    (segments : List String) :
    (tree.withDirectory location).isDirectory segments =
      (segments.isPrefixOf location.segments || tree.isDirectory segments) := by
  unfold withDirectory
  split
  · rename_i known
    cases leading : segments.isPrefixOf location.segments
    · simp
    · simpa using isDirectory_of_isPrefix (List.isPrefixOf_iff_prefix.mp leading) known
  · simp [isDirectory, Bool.or_left_comm]

end FileTree

end Columnar
