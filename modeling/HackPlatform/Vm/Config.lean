/-!
# Settings of the translator

The bootstrap can be asked for or forbidden; by default it is written when a whole directory is
translated.
-/

namespace HackPlatform.Vm

/-- When the bootstrap is written. -/
inductive Bootstrap
  | auto
  | always
  | never
  deriving DecidableEq, Repr

/-- The choices in the order of their names' listing. -/
def Bootstrap.all : List Bootstrap :=
  [.auto, .always, .never]

/-- The name of a choice. -/
def Bootstrap.name : Bootstrap → String
  | .auto => "auto"
  | .always => "always"
  | .never => "never"

/-- The choice with the given name. -/
def Bootstrap.ofName? (word : String) : Option Bootstrap :=
  all.find? fun b => b.name == word

/-- The settings of the translator: whether there is a bootstrap, the function that it calls, the
first stack pointer, and whether a note with the command goes before each block. -/
structure Config where
  bootstrap : Bootstrap := .auto
  entry : String := "Sys.init"
  stackBase : UInt16 := 256
  annotate : Bool := true
  deriving DecidableEq, Repr

/-- Whether the bootstrap is written for one unit, or for the units of a directory. -/
def Config.wantsBootstrap (c : Config) (multiUnit : Bool) : Bool :=
  match c.bootstrap with
  | .auto => multiUnit
  | .always => true
  | .never => false

end HackPlatform.Vm
