import HackPlatform.Cli.Assemble
import HackPlatform.Cli.Emulate
import HackPlatform.Cli.Translate

/-!
# The programs

The first argument names one of the three programs, the others are for it. Files are those of the
machine this runs on.
-/

namespace HackPlatform

/-- What a path of the machine leads to. -/
def pathKind (path : String) : IO (Option EntryKind) := do
  let p := System.mkFilePath [path]
  if path.isEmpty || !(← p.pathExists) then return none
  else if ← p.isDir then return some .directory
  else return some .file

/-- The cause that a numbered error of the machine stands for, if it is one of those with a name of
their own. Some operations report the number negated. -/
def numberedError? (number : UInt32) : Option FileError :=
  match min number (-number) with
  | 2 => some .notFound
  | 20 => some .notDirectory
  | 21 => some .isDirectory
  | 36 => some .tooLong
  | _ => none

/-- The cause that an error of the machine stands for. -/
def fileError (e : IO.Error) : FileError :=
  let number := match e with
    | .noFileOrDirectory _ n _ | .inappropriateType _ n _ | .invalidArgument _ n _ => n
    | _ => 0
  (numberedError? number).getD (.other (toString e))

instance : FileSystem IO where
  kind? := pathKind
  names path := do
    try
      return .ok ((← (System.mkFilePath [path]).readDir).toList.map fun e => e.fileName)
    catch e => return .error (fileError e)
  ownName? path := do
    try
      return (← IO.FS.realPath path).fileName
    catch _ => return none
  readBytes path := do
    if (← pathKind path) == some .directory then return .error .isDirectory
    try
      return .ok (← IO.FS.readBinFile path)
    catch e => return .error (fileError e)
  writeBytes path bytes := do
    if (← pathKind path) == some .directory then return .error .isDirectory
    try
      IO.FS.writeBinFile path bytes
      return .ok ()
    catch e => return .error (fileError e)

/-- Help on the usage of the programs. -/
def usage : String :=
  "usage: vm-translate PATH [-o FILE] [--config FILE] [--bootstrap auto|always|never]\n" ++
  "                    [--entry NAME] [--no-comments]\n" ++
  "       hack-run PROGRAM [--max-steps N] [--set ADDR=VALUE]... [--from N] [--count N] [--json]\n" ++
  "       hack-asm assemble ASMFILE [-o FILE] [--symbols-out FILE]\n" ++
  "       hack-asm disasm HACKFILE [--labels-in FILE] [--show-bits] [--out FILE]\n"

/-- The program with the given name. -/
def programNamed? : String → Option (List String → IO Cli.Outcome)
  | "vm-translate" => some Cli.Translate.program
  | "hack-run" => some Cli.Emulate.program
  | "hack-asm" => some Cli.Assemble.program
  | _ => none

/-- Runs the program that the arguments name. -/
def runProgram : List String → IO Cli.Outcome
  | name :: args =>
    match programNamed? name with
    | some program => program args
    | none => return .usage
  | [] => return .usage

end HackPlatform

open HackPlatform in
/-- Runs a program and ends with its exit code. -/
def main (args : List String) : IO UInt32 := do
  let outcome ← runProgram args
  IO.print outcome.stdout
  IO.eprint (if outcome.code == 2 then usage else outcome.stderr)
  return outcome.code.toUInt32
