import HackPlatform.Text.Blank
import HackPlatform.Vm.Command

/-!
# Reading a command

A line is a command when its words are a keyword or operator and as many operands as that takes,
with a segment and a sixteen-bit number where they belong. Of several faults the first in this
order counts: unknown first word, number of operands, segment, number.
-/

namespace HackPlatform.Vm

/-- Why a line is no command. -/
inductive ParseError
  | unknownCommand (word : String)
  | unknownSegment (word : String)
  | arity (keyword : String) (expected found : Nat)
  | badInteger (word : String)
  deriving DecidableEq, Repr

/-- The message of an error. -/
def ParseError.message : ParseError → String
  | .unknownCommand word => s!"unknown command `{word}`"
  | .unknownSegment word => s!"unknown segment `{word}`"
  | .arity keyword expected found => s!"`{keyword}` takes {expected} operand(s), found {found}"
  | .badInteger word => s!"`{word}` is not a non-negative 16-bit integer"

namespace Command

/-- Reads an index or count. -/
def readNumber (word : String) : Except ParseError UInt16 :=
  match Text.readWord? word.toList with
  | some n => .ok n
  | none => .error (.badInteger word)

/-- Reads a segment and an index in it. -/
def readPlace (segment index : String) : Except ParseError (Segment × UInt16) :=
  match Segment.ofName? segment with
  | none => .error (.unknownSegment segment)
  | some segment => (readNumber index).map (segment, ·)

/-- Reads a command from its words. -/
def ofWords (first : String) (operands : List String) : Except ParseError Command :=
  match Kind.classify first, operands with
  | .arithmetic, operands =>
    match Operator.ofName? first with
    | none => .error (.unknownCommand first)
    | some op =>
      if operands.isEmpty then .ok (.operate op) else .error (.arity first 0 operands.length)
  | .push, [segment, index] => (readPlace segment index).map fun p => .push p.1 p.2
  | .pop, [segment, index] => (readPlace segment index).map fun p => .pop p.1 p.2
  | .label, [name] => .ok (.label name)
  | .goto, [name] => .ok (.goto name)
  | .ifGoto, [name] => .ok (.ifGoto name)
  | .function, [name, count] => (readNumber count).map (.function name)
  | .call, [name, count] => (readNumber count).map (.call name)
  | .ret, [] => .ok .ret
  | kind, operands => .error (.arity first kind.operandCount operands.length)

/-- The words of a text, as strings. -/
def wordsOf (text : String) : List String :=
  (Text.words text.toList).map String.ofList

/-- Reads a command from a text without comments. -/
def parse (text : String) : Except ParseError Command :=
  ofWords ((wordsOf text).headD "") (wordsOf text).tail

end Command

end HackPlatform.Vm
