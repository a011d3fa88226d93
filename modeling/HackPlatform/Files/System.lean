/-!
# File systems

What a program needs from a file system, for any monad that offers it: a real one, or a tree of
directories held in memory.
-/

namespace HackPlatform

/-- Why a file could not be read or written. A path is `tooLong` when a name in it or the whole has
more bytes than the system takes, and `notAPath` when it has a NUL. Any `other` cause is in the
system's words. -/
inductive FileError
  | notFound
  | notDirectory
  | isDirectory
  | tooLong
  | notAPath
  | notText
  | other (text : String)
  deriving DecidableEq, Repr

/-- The message of an error. -/
def FileError.message : FileError → String
  | .notFound => "No such file or directory (os error 2)"
  | .notDirectory => "Not a directory (os error 20)"
  | .isDirectory => "Is a directory (os error 21)"
  | .tooLong => "File name too long (os error 36)"
  | .notAPath => "file name contained an unexpected NUL byte"
  | .notText => "stream did not contain valid UTF-8"
  | .other text => text

/-- What a path leads to. -/
inductive EntryKind
  | file
  | directory
  deriving DecidableEq, Repr

/-- The operations of a file system on paths: what a path leads to, if to anything; the names in a
directory, in no particular order; the name of a directory itself, unless it is the root; the
content of a file; and a write, which creates the file or replaces its content. -/
class FileSystem (m : Type → Type) where
  kind? : String → m (Option EntryKind)
  names : String → m (Except FileError (List String))
  ownName? : String → m (Option String)
  readBytes : String → m (Except FileError ByteArray)
  writeBytes : String → ByteArray → m (Except FileError Unit)

namespace FileSystem

variable {m : Type → Type} [Monad m] [FileSystem m]

/-- The content of a file that must be text. -/
def readText (path : String) : m (Except FileError String) := do
  match ← readBytes path with
  | .error e => return .error e
  | .ok bytes =>
    match String.fromUTF8? bytes with
    | some text => return .ok text
    | none => return .error .notText

/-- Creates or replaces a file with text. -/
def writeText (path text : String) : m (Except FileError Unit) :=
  writeBytes path text.toUTF8

end FileSystem

end HackPlatform
