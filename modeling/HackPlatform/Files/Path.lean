import HackPlatform.Text.Split

/-!
# Paths as text

A path is text with components between slashes. Its name is the last component, unless that goes up
a directory; slashes and single dots behind it do not count. The extension of a name is what follows
its last dot, and a name that starts with its only dot has none.
-/

namespace HackPlatform.Path

/-- The components of a path that lead somewhere, with `..` kept. -/
def components (path : String) : List String :=
  ((Text.splitAt (· == '/') path.toList).map String.ofList).filter fun c => c != "" && c != "."

/-- The name at the end of a path. -/
def name? (path : String) : Option String :=
  match (components path).getLast? with
  | some ".." => none
  | other => other

/-- A name cut at its last dot, if that is not its first character: stem and extension. -/
def splitName (name : String) : String × Option String :=
  let reversed := name.toList.reverse
  match Text.splitOnce? '.' reversed with
  | some (ext, stem) =>
    if stem.isEmpty then (name, none)
    else (String.ofList stem.reverse, some (String.ofList ext.reverse))
  | none => (name, none)

/-- The name of a path without its extension. -/
def stem? (path : String) : Option String :=
  (name? path).map fun name => (splitName name).1

/-- The extension of a path's name. -/
def extension? (path : String) : Option String :=
  (name? path).bind fun name => (splitName name).2

/-- Whether the extension is the given one, in any letter case. -/
def hasExtension (path ext : String) : Bool :=
  (extension? path).any fun e => e.toLower == ext.toLower

/-- The reversed path without the slashes and single dots behind its name. -/
def dropTail : List Char → List Char
  | '/' :: rest => dropTail rest
  | '.' :: '/' :: rest => dropTail ('/' :: rest)
  | rest => rest

/-- The path with an extension put behind the stem of its name; unchanged when it has no name. -/
def setExtension (path ext : String) : String :=
  match name? path with
  | none => path
  | some name =>
    let directory := ((dropTail path.toList.reverse).drop name.length).reverse
    String.ofList directory ++ (splitName name).1 ++ "." ++ ext

/-- The path with another extension. The present one is taken off first, while its dot stays, so a
name of which two dots are left is a way up and keeps nothing else. -/
def withExtension (path ext : String) : String :=
  match extension? path with
  | some old => setExtension (String.ofList (path.toList.take (path.length - old.length))) ext
  | none => setExtension path ext

/-- The path of a name in a directory. -/
def join (directory name : String) : String :=
  if directory.isEmpty || directory.toList.getLast? == some '/' then directory ++ name
  else directory ++ "/" ++ name

end HackPlatform.Path
