import HackPlatform.Asm.Binary
import HackPlatform.Asm.NameFile
import HackPlatform.Asm.Program
import HackPlatform.Cli.Arguments
import HackPlatform.Cli.Outcome
import HackPlatform.Files.Path
import HackPlatform.Files.System

/-!
# The assembler program

`hack-asm assemble ASMFILE` writes binary program text and, if asked, the names of the program;
`hack-asm disasm HACKFILE` lists a binary program, with names from a file if there is one.
-/

namespace HackPlatform.Cli.Assemble

/-- What the program is asked to do. -/
inductive Request
  | assemble (input : String) (output namesOut : Option String)
  | list (input : String) (namesIn : Option String) (bits : Bool) (output : Option String)
  deriving DecidableEq, Repr

/-- The options of `assemble`. -/
def assembleSpecs : List OptionSpec :=
  [{ name := "output", letter := some 'o' }, { name := "symbols-out" }]

/-- The options of `disasm`. -/
def listSpecs : List OptionSpec :=
  [{ name := "labels-in" }, { name := "show-bits", takesValue := false }, { name := "out" }]

/-- Reads a command line; its first argument chooses between the two uses. -/
def Request.ofArgs? : List String → Option Request
  | "assemble" :: args => do
    let a ← Arguments.parse? assembleSpecs args
    return .assemble (← a.onlyPath?) (← a.read? "output" Arguments.readPath)
      (← a.read? "symbols-out" Arguments.readPath)
  | "disasm" :: args => do
    let a ← Arguments.parse? listSpecs args
    return .list (← a.onlyPath?) (← a.read? "labels-in" Arguments.readPath) (a.has "show-bits")
      (← a.read? "out" Arguments.readPath)
  | _ => none

variable {m : Type → Type} [Monad m] [FileSystem m]

/-- Reads a file. -/
def readFile (path : String) : ExceptT Failure m String :=
  orFail (FileSystem.readText path) fun e => ⟨"reading " ++ path, [e.message]⟩

/-- Writes a file. -/
def writeFile (path text : String) : ExceptT Failure m Unit :=
  orFail (FileSystem.writeText path text) fun e => ⟨"writing " ++ path, [e.message]⟩

/-- Assembles a file; the program is written before its names are. -/
def assembleFile (input : String) (output namesOut : Option String) : ExceptT Failure m Unit := do
  match Asm.assemble (← readFile input) with
  | .error e => throw ⟨"assembling " ++ input, [e.message]⟩
  | .ok program =>
    writeFile (output.getD (Path.withExtension input "hack"))
      (Asm.Binary.render program.words.toList)
    match namesOut with
    | some path => writeFile path program.symbols.names.toJson.pretty
    | none => return ()

/-- The label map in a file, empty without one. -/
def readLabels : Option String → ExceptT Failure m Asm.LabelMap
  | none => return ∅
  | some path => do
    match Asm.AddressName.parseList? (← readFile path) with
    | some names => return .ofNames names
    | none => throw ⟨"parsing labels " ++ path, ["not a valid list of labels"]⟩

/-- Lists a file and answers what is for standard output. -/
def listFile (input : String) (namesIn : Option String) (bits : Bool) (output : Option String) :
    ExceptT Failure m String := do
  match Asm.Binary.parse (← readFile input) with
  | .error e => throw ⟨e.message, []⟩
  | .ok words =>
    let listing := Asm.Listing.render words.toArray (← readLabels namesIn) bits
    match output with
    | some path =>
      writeFile path listing
      return ""
    | none => return listing

/-- Does what is asked. -/
def perform : Request → ExceptT Failure m String
  | .assemble input output namesOut => do
    assembleFile input output namesOut
    return ""
  | .list input namesIn bits output => listFile input namesIn bits output

/-- The program. -/
def program (args : List String) : m Outcome :=
  match Request.ofArgs? args with
  | none => return .usage
  | some r => Outcome.ofAction (perform r)

end HackPlatform.Cli.Assemble
