import HackPlatform.Text.Split

/-!
# Arguments of a command line

An option starts with two dashes and its name, or with one dash and its letter. Its value is joined
to it or is the next argument, which then must not start with a dash, a dash alone excepted. Two
dashes alone end the options. Everything else is a positional argument.
-/

namespace HackPlatform.Cli

/-- An option that a program knows. One that is repeatable may be given more than once. -/
structure OptionSpec where
  name : String
  letter : Option Char := none
  takesValue : Bool := true
  repeatable : Bool := false
  deriving DecidableEq, Repr

/-- What a command line holds, in order: the arguments that are no options, and the options, each
with its value. That of a flag is empty. -/
structure Arguments where
  positionals : List String
  options : List (String × String)
  deriving DecidableEq, Repr

namespace Arguments

/-- With a further positional argument in front. -/
def withPositional (value : String) (a : Arguments) : Arguments :=
  { a with positionals := value :: a.positionals }

/-- With a further option in front, which must not be there already unless it is repeatable. -/
def withOption? (spec : OptionSpec) (value : String) (a : Arguments) : Option Arguments :=
  if !spec.repeatable && (a.options.lookup spec.name).isSome then none
  else some { a with options := (spec.name, value) :: a.options }

/-- Whether an argument may stand as the value of the option before it. -/
def isSeparateValue (arg : String) : Bool :=
  arg.toList.head? != some '-' || arg == "-"

/-- How the start of the remaining arguments reads. An option has its value joined to it or, if it
is `awaiting`, takes the next argument; a flag has an empty value. -/
inductive Head
  | positional (value : String)
  | option (spec : OptionSpec) (value : String)
  | awaiting (spec : OptionSpec)
  | endOfOptions
  | invalid

/-- Reads `--name` or `--name=value`, the dashes taken off. -/
def readLong (specs : List OptionSpec) (body : List Char) : Head :=
  let (name, value) := match Text.splitOnce? '=' body with
    | some (name, value) => (String.ofList name, some (String.ofList value))
    | none => (String.ofList body, none)
  match specs.find? fun s => s.name == name, value with
  | none, _ => .invalid
  | some spec, some value => if spec.takesValue then .option spec value else .invalid
  | some spec, none => if spec.takesValue then .awaiting spec else .option spec ""

/-- Reads `-letter`, `-lettervalue` or `-letter=value`, the dash taken off. -/
def readShort (specs : List OptionSpec) : List Char → Head
  | [] => .invalid
  | letter :: rest =>
    match specs.find? fun s => s.letter == some letter with
    | none => .invalid
    | some spec =>
      match rest with
      | [] => if spec.takesValue then .awaiting spec else .option spec ""
      | '=' :: value => if spec.takesValue then .option spec (String.ofList value) else .invalid
      | value => if spec.takesValue then .option spec (String.ofList value) else .invalid

/-- Reads one argument before the end of options. -/
def readHead (specs : List OptionSpec) (arg : String) : Head :=
  match arg.toList with
  | ['-'] => .positional arg
  | ['-', '-'] => .endOfOptions
  | '-' :: '-' :: body => readLong specs body
  | '-' :: body => readShort specs body
  | _ => .positional arg

/-- Reads a command line; there is none when it does not fit the options. -/
def parse? (specs : List OptionSpec) : List String → Option Arguments
  | [] => some ⟨[], []⟩
  | [arg] =>
    match readHead specs arg with
    | .positional value => some ⟨[value], []⟩
    | .option spec value => some ⟨[], [(spec.name, value)]⟩
    | .endOfOptions => some ⟨[], []⟩
    | .awaiting _ | .invalid => none
  | arg :: next :: rest =>
    match readHead specs arg with
    | .positional value => (parse? specs (next :: rest)).map (withPositional value)
    | .option spec value => (parse? specs (next :: rest)).bind (withOption? spec value)
    | .awaiting spec =>
      if isSeparateValue next then (parse? specs rest).bind (withOption? spec next) else none
    | .endOfOptions => some ⟨next :: rest, []⟩
    | .invalid => none

/-- The only positional argument. -/
def onlyPositional? (a : Arguments) : Option String :=
  match a.positionals with
  | [value] => some value
  | _ => none

/-- The only positional argument, as a path, which must not be empty. -/
def onlyPath? (a : Arguments) : Option String :=
  a.onlyPositional?.filter fun path => path != ""

/-- The value of an option, if it is given. -/
def value? (a : Arguments) (name : String) : Option String :=
  a.options.lookup name

/-- The values of a repeatable option, in order. -/
def values (a : Arguments) (name : String) : List String :=
  a.options.filterMap fun o => if o.1 == name then some o.2 else none

/-- Whether an option is given. -/
def has (a : Arguments) (name : String) : Bool :=
  (a.value? name).isSome

/-- Reads the value of an option, if it is given: there is no answer when it cannot be read. -/
def read? {α : Type} (a : Arguments) (name : String) (read : String → Option α) :
    Option (Option α) :=
  match a.value? name with
  | none => some none
  | some value => (read value).map some

/-- Reads a path, which must not be empty. -/
def readPath (value : String) : Option String :=
  if value.isEmpty then none else some value

end Arguments

end HackPlatform.Cli
