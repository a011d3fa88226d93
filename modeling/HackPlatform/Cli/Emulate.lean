import HackPlatform.Asm.Binary
import HackPlatform.Asm.Program
import HackPlatform.Cli.Arguments
import HackPlatform.Cli.Outcome
import HackPlatform.Files.Path
import HackPlatform.Files.System
import HackPlatform.Json.Pretty
import HackPlatform.Machine.Run
import HackPlatform.Text.Blank

/-!
# The emulator program

`hack-run PROGRAM` runs a program file, binary text if its extension is `hack` and assembly
otherwise, and reports the registers and a range of memory.
-/

namespace HackPlatform.Cli.Emulate

/-- The options of the program. -/
def optionSpecs : List OptionSpec :=
  [{ name := "max-steps" }, { name := "set", repeatable := true }, { name := "from" },
   { name := "count" }, { name := "json", takesValue := false }]

/-- What the program is asked to do. -/
structure Request where
  input : String
  maxSteps : Nat
  presets : List String
  first : UInt16
  count : Nat
  json : Bool
  deriving DecidableEq, Repr

/-- A number between bounds. -/
def readNumber (lo hi : Int) (value : String) : Option Int :=
  (Text.readInt lo hi value.toList).toOption

/-- The largest number of 64 bits. -/
def maxLong : Int := 0xFFFFFFFFFFFFFFFF

/-- The number of a report's first address. A sign is allowed as long as the number fits. -/
def readAddress (value : String) : Option UInt16 :=
  match readNumber Int64.minValue.toInt Int64.maxValue.toInt value with
  | some n => if 0 ≤ n ∧ n < 65536 then some n.toNat.toUInt16 else none
  | none => none

/-- Reads a command line. -/
def Request.ofArgs? (args : List String) : Option Request := do
  let a ← Arguments.parse? optionSpecs args
  let maxSteps ← a.read? "max-steps" (readNumber 0 maxLong)
  let count ← a.read? "count" (readNumber 0 maxLong)
  return {
    input := ← a.onlyPath?
    maxSteps := (maxSteps.map Int.toNat).getD Machine.defaultLimit
    presets := a.values "set"
    first := (← a.read? "from" readAddress).getD 0
    count := (count.map Int.toNat).getD 16
    json := a.has "json" }

/-- Reads a number within a preset. -/
def readPart (what preset : String) (lo hi : Int) (part : List Char) : Except Failure Int :=
  match Text.readInt lo hi (Text.trim part) with
  | .ok n => .ok n
  | .error e => .error ⟨s!"bad {what} in {preset}", [e.message]⟩

/-- Reads a preset `ADDR=VALUE`; the value is signed. -/
def readPreset (preset : String) : Except Failure (UInt16 × UInt16) :=
  match Text.splitOnce? '=' preset.toList with
  | none => .error ⟨"expected ADDR=VALUE", []⟩
  | some (addr, value) => do
    let addr ← readPart "address" preset 0 65535 addr
    let value ← readPart "value" preset (-32768) 32767 value
    return (addr.toNat.toUInt16, UInt16.ofInt value)

/-- Memory with presets. -/
def applyPresets (ram : Ram) : List String → Except Failure Ram
  | [] => .ok ram
  | preset :: rest => do
    let (addr, value) ← readPreset preset
    applyPresets (ram.poke addr value) rest

/-- The errors behind a trap. -/
def trapCauses : Trap → List String
  | .bus _ fault => [fault.message]
  | _ => []

/-- A halt in words. -/
def haltText : Halt → String
  | .endOfProgram => "EndOfProgram"
  | .selfLoop pc => "SelfLoop \x7b pc: " ++ Text.decimal pc ++ " \x7d"
  | .stepLimit => "StepLimit"

/-- A halt as JSON. -/
def haltJson : Halt → Json
  | .endOfProgram => .ofText "EndOfProgram"
  | .selfLoop pc => .ofMembers [("SelfLoop", .ofMembers [("pc", .ofInt pc.toNat)])]
  | .stepLimit => .ofText "StepLimit"

/-- A word as a signed number. -/
def signed (w : UInt16) : Int :=
  w.toInt16.toInt

/-- The addresses of a report: `count` of them from `first`, at most up to the last but one. -/
def addresses (first : UInt16) (count : Nat) : List UInt16 :=
  let behind := min (first.toNat + min count 65535) 65535
  (List.range (behind - first.toNat)).map fun i => first + i.toUInt16

/-- The report as lines of text. -/
def reportText (m : Machine) (steps : Nat) (halt : Halt) (cells : List UInt16) : String :=
  s!"{haltText halt} after {steps} steps\n" ++
  s!"PC={Text.decimal m.pc} A={Text.decimal m.a} D={signed m.d}\n" ++
  String.join (cells.map fun addr =>
    s!"RAM[{Text.padLeft 5 (Text.decimal addr)}] = {signed (m.ram.peek addr)}\n")

/-- The report as JSON. -/
def reportJson (m : Machine) (steps : Nat) (halt : Halt) (cells : List UInt16) : String :=
  Json.pretty (.ofMembers
    [("stats", .ofMembers [("steps", .ofInt steps), ("halt", haltJson halt)]),
     ("pc", .ofInt m.pc.toNat), ("a", .ofInt m.a.toNat), ("d", .ofInt m.d.toNat),
     ("ram", .array (cells.map fun addr =>
       .array [.ofInt addr.toNat, .ofInt (signed (m.ram.peek addr))]))]) ++ "\n"

/-! ## The program -/

/-- The words of a program text, by the extension of its file. -/
def loadWords (path text : String) : Except Failure (Array UInt16) :=
  if Path.extension? path == some "hack" then
    match Asm.Binary.parse text with
    | .ok words => .ok words.toArray
    | .error e => .error ⟨e.message, []⟩
  else
    match Asm.assemble text with
    | .ok program => .ok program.words
    | .error e => .error ⟨e.message, []⟩

/-- Runs a program text and reports. The program is read before the presets are. -/
def emulate (r : Request) (text : String) : Except Failure String := do
  let words ← loadWords r.input text
  let ram ← applyPresets (.zeros Ram.fullSize) r.presets
  let ⟨machine, steps, ending⟩ := (Machine.start ram).run ⟨words⟩ r.maxSteps
  match ending with
  | .error trap => .error ⟨trap.message, trapCauses trap⟩
  | .ok halt =>
    let cells := addresses r.first r.count
    return if r.json then reportJson machine steps halt cells
      else reportText machine steps halt cells

variable {m : Type → Type} [Monad m] [FileSystem m]

/-- Does what is asked. -/
def perform (r : Request) : ExceptT Failure m String := do
  let text ← orFail (FileSystem.readText r.input) fun e => ⟨"reading " ++ r.input, [e.message]⟩
  ExceptT.mk (return emulate r text)

/-- The program. -/
def program (args : List String) : m Outcome :=
  match Request.ofArgs? args with
  | none => return .usage
  | some r => Outcome.ofAction (perform r)

end HackPlatform.Cli.Emulate
