/-!
# Errors of the assembler

Every error names the line it arose at. A line that is not in the grammar is shown as it was read,
without comment and blanks.
-/

namespace HackPlatform.Asm

/-- What is wrong with a line that does not read as a statement or as a binary word. -/
inductive Fault
  | unterminatedLabel
  | badLabelName
  | badNumber
  | badSymbol
  | badDestination
  | badJump
  | badComputation
  | badWord
  deriving DecidableEq, Repr

/-- The wording of a fault. -/
def Fault.message : Fault → String
  | .unterminatedLabel => "unterminated label"
  | .badLabelName => "bad label name"
  | .badNumber => "bad number"
  | .badSymbol => "bad symbol"
  | .badDestination => "bad destination"
  | .badJump => "bad jump"
  | .badComputation => "bad computation"
  | .badWord => "expected 16 binary digits"

/-- Why a source text does not assemble: a line does not read, the name of a label is taken, a
numeral does not fit an instruction, no cell is left for a variable, or there are more instructions
than addresses. -/
inductive Error
  | malformed (line : Nat) (text : String) (fault : Fault)
  | duplicateLabel (line : Nat) (name : String)
  | range (line : Nat) (value : String)
  | outOfVariables (line : Nat) (name : String)
  | romFull (line : Nat)
  deriving DecidableEq, Repr

/-- The message of an error. -/
def Error.message : Error → String
  | .malformed line text fault => s!"line {line}: {fault.message}: `{text}`"
  | .duplicateLabel line name => s!"line {line}: duplicate label `{name}`"
  | .range line value => s!"line {line}: {value} does not fit an A-instruction"
  | .outOfVariables line name => s!"line {line}: no RAM left for variable `{name}`"
  | .romFull line => s!"line {line}: program exceeds ROM address space"

end HackPlatform.Asm
