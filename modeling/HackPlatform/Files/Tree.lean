import HackPlatform.Files.Path
import HackPlatform.Files.System

/-!
# File trees in memory

A tree maps absolute paths, as lists of names from the root, to files and directories. A path in
text is walked component by component from the working directory or the root, and every component
but the last must lead through a directory that is there. The length of a path is limited, and is
looked at before the walk; the length of a name is limited too, and is looked at when the walk has
come to its directory.
-/

namespace HackPlatform

/-- An entry of a tree. -/
inductive FileNode
  | directory
  | file (bytes : ByteArray)

instance : DecidableEq FileNode
  | .directory, .directory => .isTrue rfl
  | .directory, .file _ => .isFalse (by simp)
  | .file _, .directory => .isFalse (by simp)
  | .file a, .file b => decidable_of_iff (a.data = b.data) (by simp [ByteArray.ext_iff])

/-- The largest number of bytes of a name in a directory. -/
def maxNameBytes : Nat := 255

/-- The largest number of bytes of a path. -/
def maxPathBytes : Nat := 4095

/-- A file system held in memory: the absolute path of the working directory, and the entries other
than the root. An earlier entry hides a later one with its path. -/
structure FileTree where
  workingDirectory : List String
  entries : List (List String × FileNode)

namespace FileTree

/-- The entry at an absolute path. -/
def node? (t : FileTree) (path : List String) : Option FileNode :=
  if path.isEmpty then some .directory else t.entries.lookup path

/-- The tree with an entry added or replaced. -/
def insert (t : FileTree) (path : List String) (node : FileNode) : FileTree :=
  if (t.entries.lookup path).isSome then
    { t with entries := t.entries.map fun e => if e.1 == path then (path, node) else e }
  else { t with entries := t.entries ++ [(path, node)] }

/-- The tree with a directory at a path, and at every path that leads there. -/
def insertDirectory (t : FileTree) (path : List String) : FileTree :=
  ((List.range path.length).map fun n => path.take (n + 1)).foldl
    (fun t p => if (t.node? p).isSome then t else t.insert p .directory) t

/-- Where one component leads from a place. -/
def stepInto (t : FileTree) (place : List String) (component : String) :
    Except FileError (List String) :=
  match t.node? place with
  | some .directory =>
    if component == "." then .ok place
    else if component == ".." then .ok place.dropLast
    else if component.utf8ByteSize > maxNameBytes then .error .tooLong
    else
      let next := place ++ [component]
      if (t.node? next).isSome then .ok next else .error .notFound
  | some (.file _) => .error .notDirectory
  | none => .error .notFound

/-- The components of a path, single dots included. -/
def parts (path : String) : List String :=
  ((Text.splitAt (· == '/') path.toList).map String.ofList).filter fun c => c != ""

/-- Whether a path insists on a directory by a slash at its end. -/
def endsInSlash (path : String) : Bool :=
  path.toList.getLast? == some '/'

/-- The components of a path to walk through; a slash at its end counts as a single dot. -/
def steps (path : String) : List String :=
  if endsInSlash path then parts path ++ ["."] else parts path

/-- The place that a path starts from. -/
def origin (t : FileTree) (path : String) : List String :=
  if path.toList.head? == some '/' then [] else t.workingDirectory

/-- A path that can be walked has a character, no NUL and not too many bytes. -/
def checkPath (path : String) : Except FileError Unit :=
  if path.toList.contains '\x00' then .error .notAPath
  else if path.isEmpty then .error .notFound
  else if path.utf8ByteSize > maxPathBytes then .error .tooLong
  else .ok ()

/-- The absolute path of the entry that a path leads to. -/
def resolve (t : FileTree) (path : String) : Except FileError (List String) := do
  checkPath path
  (steps path).foldlM t.stepInto (t.origin path)

/-- What a path leads to. -/
def kind? (t : FileTree) (path : String) : Option EntryKind :=
  match t.resolve path with
  | .error _ => none
  | .ok place => (t.node? place).map fun
    | .directory => .directory
    | .file _ => .file

/-- The names in a directory. -/
def names (t : FileTree) (path : String) : Except FileError (List String) := do
  let place ← t.resolve path
  match t.node? place with
  | some .directory =>
    return t.entries.filterMap fun e =>
      if e.1.dropLast == place && !e.1.isEmpty then e.1.getLast? else none
  | some (.file _) => .error .notDirectory
  | none => .error .notFound

/-- The content of a file. -/
def readBytes (t : FileTree) (path : String) : Except FileError ByteArray := do
  match t.node? (← t.resolve path) with
  | some (.file bytes) => return bytes
  | some .directory => .error .isDirectory
  | none => .error .notFound

/-- The absolute path of the file that a path names, which may still be missing. -/
def fileTarget (t : FileTree) (path : String) : Except FileError (List String) := do
  checkPath path
  let place ← (parts path).dropLast.foldlM t.stepInto (t.origin path)
  match t.node? place, (parts path).getLast? with
  | some .directory, some last =>
    if endsInSlash path || last == "." || last == ".." then .error .isDirectory
    else if last.utf8ByteSize > maxNameBytes then .error .tooLong
    else if t.node? (place ++ [last]) matches some .directory then .error .isDirectory
    else return place ++ [last]
  | some .directory, none => .error .isDirectory
  | some (.file _), _ => .error .notDirectory
  | none, _ => .error .notFound

/-- The tree after a file is created or replaced. -/
def writeBytes (t : FileTree) (path : String) (bytes : ByteArray) : Except FileError FileTree :=
  (t.fileTarget path).map fun target => t.insert target (.file bytes)

instance : FileSystem (StateM FileTree) where
  kind? path := return (← get).kind? path
  names path := return (← get).names path
  ownName? path := return ((← get).resolve path).toOption.bind List.getLast?
  readBytes path := return (← get).readBytes path
  writeBytes path bytes := do
    match (← get).writeBytes path bytes with
    | .ok t =>
      set t
      return .ok ()
    | .error e => return .error e

end FileTree

end HackPlatform
