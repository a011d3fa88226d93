import HackPlatform.Cli.Arguments
import HackPlatform.Cli.Outcome
import HackPlatform.Job

/-!
# The translator program

`vm-translate PATH` translates a unit file or a directory of them. Settings come from a file, and
options on the command line override it.
-/

namespace HackPlatform.Cli.Translate

/-- The options of the program. -/
def optionSpecs : List OptionSpec :=
  [{ name := "output", letter := some 'o' }, { name := "config" }, { name := "bootstrap" },
   { name := "entry" }, { name := "no-comments", takesValue := false }]

/-- What the program is asked to do. -/
structure Request where
  input : String
  output : Option String
  configFile : Option String
  bootstrap : Option Vm.Bootstrap
  entry : Option String
  noComments : Bool
  deriving DecidableEq, Repr

/-- Reads a command line. -/
def Request.ofArgs? (args : List String) : Option Request := do
  let a ← Arguments.parse? optionSpecs args
  return {
    input := ← a.onlyPath?
    output := ← a.read? "output" Arguments.readPath
    configFile := ← a.read? "config" Arguments.readPath
    bootstrap := ← a.read? "bootstrap" Vm.Bootstrap.ofName?
    entry := a.value? "entry"
    noComments := a.has "no-comments" }

/-- The settings with what the command line overrides. -/
def Request.override (r : Request) (config : Vm.Config) : Vm.Config :=
  { config with
    bootstrap := r.bootstrap.getD config.bootstrap
    entry := r.entry.getD config.entry
    annotate := config.annotate && !r.noComments }

/-- The failure that a job's error is reported as. -/
def jobFailure (e : Job.Error) : Failure :=
  ⟨e.message, e.causes⟩

variable {m : Type → Type} [Monad m] [FileSystem m]

/-- The settings to start from. -/
def loadConfig : Option String → ExceptT Failure m Vm.Config
  | none => return {}
  | some path =>
    orFail (Job.readConfig path) fun e => ⟨"loading config " ++ path, e.message :: e.causes⟩

/-- Does what is asked; the settings are read before the job is planned. -/
def perform (r : Request) : ExceptT Failure m String := do
  let config := r.override (← loadConfig r.configFile)
  let job ← orFail (Job.plan r.input) jobFailure
  let job := { job with output := r.output.getD job.output }
  let written ← orFail (job.run config) jobFailure
  return s!"Output written to '{written}'\n"

/-- The program. -/
def program (args : List String) : m Outcome :=
  match Request.ofArgs? args with
  | none => return .usage
  | some r => Outcome.ofAction (perform r)

end HackPlatform.Cli.Translate
