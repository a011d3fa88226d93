import HackPlatform.Vm.Config
import HackPlatform.Vm.Source
import HackPlatform.Vm.Writer

/-!
# The translator

A translator writes unit after unit to one sink. It stops at the first line that is no command or
that the writer does not take, and names that line.
-/

namespace HackPlatform.Vm

/-- Why units were not translated: a line is no command, a command was not written, or the output
could not be completed. -/
inductive TranslateError
  | parse (unit : String) (line : Nat) (text : String) (cause : ParseError)
  | emit (unit : String) (line : Nat) (text : String) (cause : EmitError)
  | output (cause : String)
  deriving DecidableEq, Repr

/-- The message of an error. -/
def TranslateError.message : TranslateError → String
  | .parse unit line text cause => s!"{unit}:{line}: {cause.message}: `{text}`"
  | .emit unit line text cause => s!"{unit}:{line}: {cause.message}: `{text}`"
  | .output cause => s!"<output>: {cause}"

/-- A writer with the settings it was made from. -/
structure Translator (σ : Type) where
  writer : Writer σ
  config : Config

namespace Translator

variable {σ : Type} [Sink σ]

/-- A translator that has written nothing. -/
def new (sink : σ) (config : Config) : Translator σ :=
  ⟨.new sink config.annotate, config⟩

/-- Writes the bootstrap. Its errors name a unit and line of their own. -/
def bootstrap : Translator σ → Translator σ × Except TranslateError Unit
  | ⟨writer, config⟩ =>
    match writer.bootstrap config.stackBase config.entry with
    | (writer, .ok ()) => (⟨writer, config⟩, .ok ())
    | (writer, .error cause) =>
      (⟨writer, config⟩, .error (.emit "<bootstrap>" 0 s!"call {config.entry} 0" cause))

/-- Writes the commands of lines, of which `done` were written before, and answers their number. -/
def writeLines (unit : String) (done : Nat) (w : Writer σ) :
    List SourceLine → Writer σ × Except TranslateError Nat
  | [] => (w, .ok done)
  | line :: rest =>
    match Command.parse line.text with
    | .error cause => (w, .error (.parse unit line.number line.text cause))
    | .ok command =>
      match w.write command with
      | (w, .ok ()) => writeLines unit (done + 1) w rest
      | (w, .error cause) => (w, .error (.emit unit line.number line.text cause))

/-- Translates what is left of a unit, and answers the number of its commands. -/
def translateUnit (t : Translator σ) (unit : Cursor) : Translator σ × Except TranslateError Nat :=
  match t with
  | ⟨writer, config⟩ =>
    match writeLines unit.unit 0 (writer.setUnit unit.unit) unit.rest with
    | (writer, result) => (⟨writer, config⟩, result)

/-- Translates a source text as a unit. -/
def translateSource (t : Translator σ) (unit source : String) :
    Translator σ × Except TranslateError Nat :=
  t.translateUnit (.ofSource unit source)

/-- Translates units in order, up to the first that fails. -/
def translateUnits (t : Translator σ) :
    List (String × String) → Translator σ × Except TranslateError Unit
  | [] => (t, .ok ())
  | (unit, source) :: rest =>
    match t.translateSource unit source with
    | (t, .ok _) => t.translateUnits rest
    | (t, .error e) => (t, .error e)

/-- Completes the output and hands back the sink. -/
def finish (t : Translator σ) : Except TranslateError σ :=
  match Sink.flush t.writer.sink with
  | .ok () => .ok t.writer.sink
  | .error cause => .error (.output cause)

end Translator

/-- Writes the bootstrap, if wanted, and then the units. -/
def translateOnto {σ : Type} [Sink σ] (t : Translator σ) (units : List (String × String))
    (bootstrap : Bool) : Translator σ × Except TranslateError Unit :=
  match if bootstrap then t.bootstrap else (t, .ok ()) with
  | (t, .ok ()) => t.translateUnits units
  | (t, .error e) => (t, .error e)

/-- The lines that named source texts translate to. -/
def translate (units : List (String × String)) (bootstrap : Bool) (config : Config) :
    Except TranslateError Page :=
  match translateOnto (.new Page.empty config) units bootstrap with
  | (t, .ok ()) => t.finish
  | (_, .error e) => .error e

/-- The text that named source texts translate to. -/
def translateSources (units : List (String × String)) (bootstrap : Bool) (config : Config) :
    Except TranslateError String :=
  (translate units bootstrap config).map Page.text

end HackPlatform.Vm
