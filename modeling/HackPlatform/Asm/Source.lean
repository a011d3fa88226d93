import HackPlatform.Asm.Error
import HackPlatform.Asm.Name
import HackPlatform.Asm.Statement
import HackPlatform.Text.Line

/-!
# Reading assembly source

A line is cut at its comment and freed of all blanks, also those inside a word; what is left is
empty or must be one statement. The parts of a computation are checked in the order destination,
jump, computation.
-/

namespace HackPlatform.Asm

/-- Why a line is not a statement. -/
inductive LineError
  | malformed (fault : Fault)
  | range (value : String)
  deriving DecidableEq, Repr

/-- The error of a line within a source text. -/
def LineError.locate (line : Nat) (text : String) : LineError → Error
  | .malformed fault => .malformed line text fault
  | .range value => .range line value

namespace Statement

/-- Reads what stands between the parentheses of a label, the closing one included. -/
def readLabel (inner : List Char) : Except LineError (Statement String) :=
  if inner.getLast? = some ')' then
    let name := inner.dropLast
    if isName name then .ok (.label (String.ofList name)) else .error (.malformed .badLabelName)
  else .error (.malformed .unterminatedLabel)

/-- Reads what stands behind `@`. A first digit makes it a numeral, of at most 32 bits. -/
def readOperand (operand : List Char) : Except LineError (Statement String) :=
  if (operand.head?.map Char.isDigit).getD false then
    match Text.readDecimal? operand with
    | none => .error (.malformed .badNumber)
    | some n =>
      if n ≥ UInt32.size then .error (.malformed .badNumber)
      else if n > maxAddress.toNat then .error (.range (String.ofList operand))
      else .ok (.load n.toUInt16)
  else if isName operand then .ok (.reference (String.ofList operand))
  else .error (.malformed .badSymbol)

/-- Reads the jump behind a semicolon, which must not be empty. -/
def readJump (name : List Char) : Except LineError Jump :=
  match Jump.ofText? (String.ofList name) with
  | some .never => .error (.malformed .badJump)
  | some jump => .ok jump
  | none => .error (.malformed .badJump)

/-- Reads `comp` or `comp;jump` with the given destination. -/
def readComputation (dest : Dest) (text : List Char) : Except LineError (Statement String) := do
  let (comp, jump) ← match Text.splitOnce? ';' text with
    | some (comp, jump) => (readJump jump).map (comp, ·)
    | none => pure (text, Jump.never)
  match Comp.ofText? (String.ofList comp) with
  | some comp => .ok (.instr (.compute dest comp jump))
  | none => .error (.malformed .badComputation)

/-- Reads a statement from a line without comment and blanks. -/
def read (text : List Char) : Except LineError (Statement String) :=
  match text with
  | '(' :: inner => readLabel inner
  | '@' :: operand => readOperand operand
  | _ =>
    match Text.splitOnce? '=' text with
    | some (dest, rest) =>
      match Dest.ofLetters? dest with
      | some dest => readComputation dest rest
      | none => .error (.malformed .badDestination)
    | none => readComputation .none text

end Statement

/-- A statement and the number of its line. -/
structure Located where
  line : Nat
  statement : Statement String
  deriving DecidableEq, Repr

/-- The lines that hold more than blanks and comments, cleaned and numbered. -/
def codeLines (source : List Char) : List (Nat × List Char) :=
  ((Text.numberedLines source).map fun l => (l.1, Text.squeeze (Text.beforeComment l.2))).filter
    fun l => !l.2.isEmpty

/-- The statement of a numbered line. -/
def readLine (l : Nat × List Char) : Except Error Located :=
  match Statement.read l.2 with
  | .ok s => .ok ⟨l.1, s⟩
  | .error e => .error (e.locate l.1 (String.ofList l.2))

/-- The statements of a source text, or the error of the first line that is none. -/
def readSource (source : String) : Except Error (List Located) :=
  (codeLines source.toList).mapM readLine

end HackPlatform.Asm
