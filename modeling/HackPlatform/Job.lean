import HackPlatform.Files.Path
import HackPlatform.Files.System
import HackPlatform.Vm.Config.File
import HackPlatform.Vm.Translator

/-!
# Translator jobs

A job translates one unit file, or all unit files of a directory in the order of their names, into
one output file. It is planned from a path and then run. All units are translated before
the output is written, so a job that fails writes nothing.
-/

namespace HackPlatform

/-- The extension of unit files, in any letter case. -/
def unitExtension : String := "vm"

/-- The extension of output files. -/
def outputExtension : String := "asm"

/-- Input and output files of a job, and whether it translates a directory. -/
structure Job where
  units : List String
  output : String
  multiUnit : Bool
  deriving DecidableEq, Repr

namespace Job

/-- Why a job cannot be planned or fails. -/
inductive Error
  | translate (e : Vm.TranslateError)
  | file (path : String) (e : FileError)
  | missing (path : String)
  | emptyDirectory (path : String)
  | unsupportedInput (path : String)
  | badConfig
  deriving DecidableEq, Repr

namespace Error

/-- The message of an error. -/
def message : Error → String
  | translate e => e.message
  | file path e => path ++ ": " ++ e.message
  | missing path => path ++ ": no such file or directory"
  | emptyDirectory path => path ++ ": no .vm files found"
  | unsupportedInput path => path ++ ": expected a .vm file or a directory"
  | badConfig => "configuration: not a valid settings record"

/-- The messages of the errors behind an error, outermost first. -/
def causes : Error → List String
  | translate (.parse _ _ _ cause) => [cause.message]
  | translate (.emit _ _ _ (.invalidOperand r)) => [Vm.EmitError.message (.invalidOperand r)]
  | translate (.emit _ _ _ (.io cause)) => [Vm.EmitError.message (.io cause), cause]
  | translate (.output cause) => [cause]
  | file _ e => [e.message]
  | missing _ => ["no such file or directory"]
  | emptyDirectory _ | unsupportedInput _ | badConfig => []

end Error

variable {m : Type → Type} [Monad m] [FileSystem m]

/-- Whether a path leads to a unit file. -/
def isUnitFile (path : String) : m Bool := do
  return (← FileSystem.kind? path) == some .file && Path.hasExtension path unitExtension

/-- Plans the job of a directory. The output takes the directory's own name. -/
def planDirectory (input : String) : m (Except Error Job) := do
  match ← FileSystem.names input with
  | .error e => return .error (.file input e)
  | .ok names =>
    let units ← (names.mergeSort fun a b => !decide (b < a)).filterM fun name =>
      isUnitFile (Path.join input name)
    if units.isEmpty then return .error (.emptyDirectory input)
    let name := (← FileSystem.ownName? input).getD "out"
    return .ok
      { units := units.map (Path.join input)
        output := Path.join input (name ++ "." ++ outputExtension)
        multiUnit := true }

/-- Plans the job of a path. -/
def plan (input : String) : m (Except Error Job) := do
  match ← FileSystem.kind? input with
  | some .directory => planDirectory input
  | some .file =>
    if Path.hasExtension input unitExtension then
      return .ok ⟨[input], Path.withExtension input outputExtension, false⟩
    else return .error (.unsupportedInput input)
  | none => return .error (.missing input)

/-- Reads and translates unit files in order, each as a unit named by the stem of its file. -/
def translateFiles {σ : Type} [Vm.Sink σ] (t : Vm.Translator σ) :
    List String → m (Vm.Translator σ × Except Error Unit)
  | [] => return (t, .ok ())
  | path :: rest => do
    match ← FileSystem.readText path with
    | .error e => return (t, .error (.file path e))
    | .ok source =>
      match t.translateSource ((Path.stem? path).getD "") source with
      | (t, .ok _) => translateFiles t rest
      | (t, .error e) => return (t, .error (.translate e))

/-- The text that a job's units translate to. -/
def outputText (job : Job) (config : Vm.Config) : m (Except Error String) := do
  let start := Vm.Translator.new Vm.Page.empty config
  match if config.wantsBootstrap job.multiUnit then start.bootstrap else (start, .ok ()) with
  | (_, .error e) => return .error (.translate e)
  | (t, .ok ()) =>
    match ← translateFiles t job.units with
    | (_, .error e) => return .error e
    | (t, .ok ()) =>
      match t.finish with
      | .error e => return .error (.translate e)
      | .ok page => return .ok page.text

/-- Runs a job, and answers the path of its output. -/
def run (job : Job) (config : Vm.Config) : m (Except Error String) := do
  match ← job.outputText config with
  | .error e => return .error e
  | .ok text =>
    match ← FileSystem.writeText job.output text with
    | .error e => return .error (.file job.output e)
    | .ok () => return .ok job.output

/-- The settings in a file. -/
def readConfig (path : String) : m (Except Error Vm.Config) := do
  match ← FileSystem.readText path with
  | .error e => return .error (.file path e)
  | .ok text =>
    match Vm.Config.parse? text with
    | some config => return .ok config
    | none => return .error .badConfig

end Job

end HackPlatform
