import HeapImage.Error.Format

/-!
# File trees

Directories and files as a value, so that what commands do to files can be said without running
them.

* `FileNode`, `FileTree`: what there is, and the directory that relative paths start from.
* `FileTree.locate`: the place that a path names.
* `FileTree.read`, `FileTree.write`: the contents of a file.
* `FileAccess`: whether contents are read or mapped, which not everything allows.
-/

namespace HeapImage

/-- What a name stands for. -/
inductive FileNode where
  | directory
  | file (bytes : ByteArray)
  /-- A device that is always empty, whatever is written to it. -/
  | sink

/-- The names on the way to a place, the last one first; the top has none. -/
abbrev FilePlace := List String

/-- Directories and files. -/
structure FileTree where
  /-- What there is below the top. -/
  nodes : List (FilePlace × FileNode)
  /-- The directory that relative paths start from. -/
  here : FilePlace

/-- How the contents of a file are taken. -/
inductive FileAccess where
  | read
  /-- As a private view of the file. -/
  | map
  deriving DecidableEq, Repr

/-- What is said instead of an error when contents are to be mapped: a directory can be opened, but
it has no view. -/
def FileAccess.refusal : FileAccess → FileError → FileError
  | map, .isADirectory => .noDevice
  | _, e => e

namespace FileTree

/-- The most bytes of a name. -/
def maxName : Nat := 255

/-- The least number of bytes of a path that is too long. -/
def pathLimit : Nat := 4096

/-- What there is at a place. -/
def node? (t : FileTree) : FilePlace → Option FileNode
  | [] => some .directory
  | place => t.nodes.lookup place

/-- The tree with something else at a place. -/
def put (t : FileTree) (place : FilePlace) (node : FileNode) : FileTree :=
  { t with nodes := (place, node) :: t.nodes.filter fun entry => entry.1 != place }

/-! ### Paths -/

/-- The names between the slashes of a path. -/
def names (path : String) : List String := (path.splitOn "/").filter fun name => !name.isEmpty

/-- The path ends in a slash, so that it can only name a directory. -/
def wantsDirectory (path : String) : Bool := path.endsWith "/"

/-- Where a path starts. -/
def start (t : FileTree) (path : String) : FilePlace := if path.startsWith "/" then [] else t.here

/-- The place that a name leads to from a place, which has to be a directory. One dot stays there,
and two dots lead back. -/
def step (t : FileTree) (place : FilePlace) (name : String) : Except FileError FilePlace :=
  match t.node? place with
  | none => .error .notFound
  | some .directory =>
    if name = "." then .ok place
    else if name = ".." then .ok place.tail
    else if maxName < name.utf8ByteSize then .error .nameTooLong
    else .ok (name :: place)
  | some _ => .error .notADirectory

/-- The place that names lead to, one after the other. -/
def walk (t : FileTree) (place : FilePlace) (names : List String) : Except FileError FilePlace :=
  names.foldlM t.step place

/-- Refuses a path that is too long to be looked at. -/
def checkLength (path : String) : Except FileError Unit :=
  if pathLimit ≤ path.utf8ByteSize then .error .nameTooLong else .ok ()

/-- The place that a path names. Nothing has to be there. -/
def locate (t : FileTree) (path : String) : Except FileError FilePlace := do
  checkLength path
  t.walk (t.start path) (names path ++ if wantsDirectory path then ["."] else [])

/-- The place where a path would make a file, which is none if the path wants a directory. -/
def locateNew (t : FileTree) (path : String) : Except FileError FilePlace := do
  checkLength path
  match (names path).getLast? with
  | none => throw .isADirectory
  | some name =>
    -- What leads to the file is looked at before the last name and the slash after it.
    let parent ← t.walk (t.start path) ((names path).dropLast ++ ["."])
    if wantsDirectory path then throw .isADirectory
    t.step parent name

/-! ### Contents -/

/-- The contents of the file that a path names. -/
def read (t : FileTree) (access : FileAccess) (path : String) : Except FileError ByteArray := do
  match t.node? (← t.locate path) with
  | none => throw .notFound
  | some (.file bytes) => return bytes
  | some .directory => throw (access.refusal .isADirectory)
  | some .sink => if access = .map then throw .noDevice else return ByteArray.empty

/-- The tree with new contents in the file that a path names, which is made if it is not there. -/
def write (t : FileTree) (path : String) (bytes : ByteArray) : Except FileError FileTree := do
  let place ← t.locateNew path
  match t.node? place with
  | some .directory => throw .isADirectory
  | some .sink => return t
  | _ => return t.put place (.file bytes)

end FileTree

end HeapImage
