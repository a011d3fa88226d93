import HackPlatform.Asm.Name
import HackPlatform.Asm.Statement
import HackPlatform.Vm.Symbol

/-!
# Blocks

Each command becomes one block of assembly statements. What a block depends on besides its command
is the scope: the unit, the function the command stands in, and how many labels were made. All
checks come before the first effect, so a rejected command has none. The effects of a block are
listed in the order in which they happen, for a writer that may have to stop between two of them.
-/

namespace HackPlatform.Vm

open Asm (Statement)

/-- Why a command has no block. -/
inductive Reason
  | outOfRange
  | pushOnly
  | notAName
  | reserved
  | tooManyArguments
  | stackBase
  deriving DecidableEq, Repr

/-- The wording of a reason. -/
def Reason.message : Reason → String
  | .outOfRange => "index out of range"
  | .pushOnly => "constant segment is push-only"
  | .notAName => "not a valid assembler symbol"
  | .reserved => "`$` is reserved for generated labels"
  | .tooManyArguments => "too many arguments"
  | .stackBase => "stack base exceeds address space"

/-- A refused operand. -/
structure Rejection where
  operand : String
  reason : Reason
  deriving DecidableEq, Repr

/-- What the block of a command depends on: the unit, which owns the static cells; the function that
the command stands in, if any, which owns the labels; and the number of labels made so far. -/
structure Scope where
  unit : String
  function : Option String
  labelCount : Nat
  deriving DecidableEq, Repr

/-- One effect of a block: a statement, a label that was made, or the function that the commands
behind it stand in. -/
inductive Effect
  | emit (s : Statement Symbol)
  | tick
  | enter (function : String)
  deriving DecidableEq, Repr

/-- The scope after an effect. -/
def Scope.after (s : Scope) : Effect → Scope
  | .emit _ => s
  | .tick => { s with labelCount := s.labelCount + 1 }
  | .enter f => { s with function := some f }

/-- The number of cells of the static segment. -/
def staticSize : UInt16 := 240

/-- The first cell and the number of cells of the temp segment. -/
def tempBase : UInt16 := 5

def tempSize : UInt16 := 8

/-- The words a call saves: the return address and four registers. -/
def frameSize : UInt16 := 5

/-- An index must not exceed the largest of its segment. -/
def checkIndex (segment : Segment) (index largest : UInt16) : Except Rejection Unit :=
  if index > largest then .error ⟨segment.name ++ " " ++ Text.decimal index, .outOfRange⟩
  else .ok ()

/-- The written form must be a name of assembly language. -/
def checkName (text : String) : Except Rejection Unit :=
  if Asm.isName text.toList then .ok () else .error ⟨text, .notAName⟩

/-- A function or label of the source must have a name without the reserved character. -/
def checkUserName (name : String) : Except Rejection Unit := do
  checkName name
  if name.toList.contains '$' then .error ⟨name, .reserved⟩ else .ok ()

namespace Scope

/-- The name of a label of the source within the scope. -/
def labelSymbol (s : Scope) (name : String) : Symbol :=
  match s.function with
  | some f => .inFunction f name
  | none => .inUnit s.unit name

/-- The name of a label of the source, when it is allowed. -/
def userLabel (s : Scope) (name : String) : Except Rejection Symbol := do
  checkUserName name
  checkName (s.labelSymbol name).text
  return s.labelSymbol name

end Scope

/-- Where a transfer finds its word: the index itself is the word, and there is no cell; the cell is
at an offset from the address that a register holds; or it does not move, and a statement loads its
address. -/
inductive Place
  | value (w : UInt16)
  | indexed (base : Register) (offset : UInt16)
  | fixed (load : Statement Symbol)
  deriving DecidableEq, Repr

/-- The place of an index in a segment. -/
def Segment.place (s : Scope) (segment : Segment) (index : UInt16) : Except Rejection Place :=
  match segment with
  | .constant => return .value index
  | .locals => do checkIndex segment index maxAddress; return .indexed .lcl index
  | .argument => do checkIndex segment index maxAddress; return .indexed .arg index
  | .this => do checkIndex segment index maxAddress; return .indexed .this index
  | .that => do checkIndex segment index maxAddress; return .indexed .that index
  | .static => do
    checkIndex segment index (staticSize - 1)
    checkName (Symbol.static s.unit index).text
    return .fixed (.reference (.static s.unit index))
  | .temp => do
    checkIndex segment index (tempSize - 1)
    return .fixed (.load (tempBase + index))
  | .pointer => do
    checkIndex segment index 1
    return .fixed (.reference (.register (if index = 0 then .this else .that)))

namespace Code

/-- `@register`. -/
def addr (r : Register) : Statement Symbol :=
  .reference (.register r)

/-- Push D. -/
def pushD : List (Statement Symbol) :=
  [addr .sp, .assign .onlyA .m, .assign .onlyM .d, addr .sp, .assign .onlyM .mPlusOne]

/-- Pop into D. -/
def popD : List (Statement Symbol) :=
  [addr .sp, .assign .aAndM .mMinusOne, .assign .onlyD .m]

/-- Replace the two topmost words by a computation on D, the upper, and M, the lower. -/
def binary (comp : Comp) : List (Statement Symbol) :=
  popD ++ [.assign .onlyA .aMinusOne, .assign .onlyM comp]

/-- Replace the topmost word by a computation on M. -/
def unary (comp : Comp) : List (Statement Symbol) :=
  [addr .sp, .assign .onlyA .mMinusOne, .assign .onlyM comp]

/-- The condition under which a relation holds of the difference of its operands. -/
def condition : Relation → Jump
  | .eq => .eq
  | .gt => .gt
  | .lt => .lt

/-- Replace the two topmost words by all ones or zero, as the sign of their difference says. -/
def compare (r : Relation) (n : Nat) : List (Statement Symbol) :=
  popD ++
  [.assign .onlyA .aMinusOne, .assign .onlyD .mMinusD,
   .reference (.made (.holds r) n), .branch .d (condition r),
   addr .sp, .assign .onlyA .mMinusOne, .assign .onlyM .zero,
   .reference (.made (.done r) n), .branch .zero .always,
   .label (.made (.holds r) n),
   addr .sp, .assign .onlyA .mMinusOne, .assign .onlyM .minusOne,
   .label (.made (.done r) n)]

/-- Push the word of a place. -/
def push : Place → List (Statement Symbol)
  | .value w => [.load w, .assign .onlyD .a] ++ pushD
  | .indexed base offset =>
    [addr base, .assign .onlyD .m, .load offset, .assign .onlyA .dPlusA, .assign .onlyD .m] ++ pushD
  | .fixed load => [load, .assign .onlyD .m] ++ pushD

/-- Pop into the cell at an offset from a base. The address waits in R13. -/
def popIndexed (base : Register) (offset : UInt16) : List (Statement Symbol) :=
  [addr base, .assign .onlyD .m, .load offset, .assign .onlyD .dPlusA,
   addr .r13, .assign .onlyM .d] ++
  popD ++ [addr .r13, .assign .onlyA .m, .assign .onlyM .d]

/-- Pop into a cell that does not move. -/
def popFixed (load : Statement Symbol) : List (Statement Symbol) :=
  popD ++ [load, .assign .onlyM .d]

/-- Clear `n` words on top of the stack, with D counting down. -/
def clear (n : UInt16) (number : Nat) : List (Statement Symbol) :=
  let loop := Symbol.made .clear number
  [.load n, .assign .onlyD .a, .label loop,
   addr .sp, .assign .onlyA .m, .assign .onlyM .zero, addr .sp, .assign .onlyM .mPlusOne,
   .assign .onlyD .dMinusOne, .reference loop, .branch .d .gt]

/-- Push the content of a register. -/
def save (r : Register) : List (Statement Symbol) :=
  [addr r, .assign .onlyD .m] ++ pushD

/-- Save the frame, set the callee's frame and go there. `offset` is the number of words from the
first argument to the new top of the stack. -/
def call (callee : String) (offset : UInt16) (number : Nat) : List (Statement Symbol) :=
  let resume := Symbol.made (.resume callee) number
  [.reference resume, .assign .onlyD .a] ++ pushD ++
  save .lcl ++ save .arg ++ save .this ++ save .that ++
  [addr .sp, .assign .onlyD .m, .load offset, .assign .onlyD .dMinusA, addr .arg, .assign .onlyM .d,
   addr .sp, .assign .onlyD .m, addr .lcl, .assign .onlyM .d,
   .reference (.function callee), .branch .zero .always, .label resume]

/-- Restore a register from its distance below the frame in R13. -/
def restore (r : Register) (distance : UInt16) : List (Statement Symbol) :=
  [addr .r13, .assign .onlyD .m, .load distance, .assign .onlyA .dMinusA, .assign .onlyD .m,
   addr r, .assign .onlyM .d]

/-- Keep the frame and the return address aside, since the result may overwrite the latter; hand
over the result; restore the caller's frame and go back. -/
def ret : List (Statement Symbol) :=
  [addr .lcl, .assign .onlyD .m, addr .r13, .assign .onlyM .d,
   .load frameSize, .assign .onlyA .dMinusA, .assign .onlyD .m, addr .r14, .assign .onlyM .d] ++
  popD ++
  [addr .arg, .assign .onlyA .m, .assign .onlyM .d,
   addr .arg, .assign .onlyD .mPlusOne, addr .sp, .assign .onlyM .d] ++
  restore .that 1 ++ restore .this 2 ++ restore .arg 3 ++ restore .lcl 4 ++
  [addr .r14, .assign .onlyA .m, .branch .zero .always]

/-- Set the stack pointer. -/
def setStack (base : UInt16) : List (Statement Symbol) :=
  [.load base, .assign .onlyD .a, addr .sp, .assign .onlyM .d]

end Code

/-! ## The block of a command -/

/-- The effects of emitting statements. -/
def emitAll (code : List (Statement Symbol)) : List Effect :=
  code.map .emit

/-- The block of an operator. -/
def Operator.block (s : Scope) : Operator → List Effect
  | .add => emitAll (Code.binary .dPlusM)
  | .sub => emitAll (Code.binary .mMinusD)
  | .and => emitAll (Code.binary .dAndM)
  | .or => emitAll (Code.binary .dOrM)
  | .neg => emitAll (Code.unary .negM)
  | .not => emitAll (Code.unary .notM)
  | .compare r => .tick :: emitAll (Code.compare r s.labelCount)

/-- The block of a push. -/
def pushBlock (s : Scope) (segment : Segment) (index : UInt16) : Except Rejection (List Effect) := do
  match ← segment.place s index with
  | .value w => do
    checkIndex segment w maxAddress
    return emitAll (Code.push (.value w))
  | place => return emitAll (Code.push place)

/-- The block of a pop. -/
def popBlock (s : Scope) (segment : Segment) (index : UInt16) : Except Rejection (List Effect) := do
  match ← segment.place s index with
  | .value _ => .error ⟨"pop constant " ++ Text.decimal index, .pushOnly⟩
  | .indexed base offset => return emitAll (Code.popIndexed base offset)
  | .fixed load => return emitAll (Code.popFixed load)

/-- The block of a function's start. Without local variables it is the label alone. -/
def functionBlock (s : Scope) (name : String) (localCount : UInt16) :
    Except Rejection (List Effect) := do
  checkUserName name
  checkIndex .locals localCount maxAddress
  let start := [.enter name, .emit (.label (.function name))]
  if localCount = 0 then return start
  else return start ++ .tick :: emitAll (Code.clear localCount s.labelCount)

/-- The block of a call. -/
def callBlock (s : Scope) (name : String) (argCount : UInt16) : Except Rejection (List Effect) := do
  checkUserName name
  if argCount.toNat + frameSize.toNat > maxAddress.toNat then
    .error ⟨"call " ++ name ++ " " ++ Text.decimal argCount, .tooManyArguments⟩
  else return .tick :: emitAll (Code.call name (argCount + frameSize) s.labelCount)

/-- The block of a command in a scope. -/
def Command.block (s : Scope) : Command → Except Rejection (List Effect)
  | .operate op => .ok (op.block s)
  | .push segment index => pushBlock s segment index
  | .pop segment index => popBlock s segment index
  | .label name => do return emitAll [.label (← s.userLabel name)]
  | .goto name => do return emitAll [.reference (← s.userLabel name), .branch .zero .always]
  | .ifGoto name => do
    let target ← s.userLabel name
    return emitAll (Code.popD ++ [.reference target, .branch .d .ne])
  | .function name localCount => functionBlock s name localCount
  | .call name argCount => callBlock s name argCount
  | .ret => .ok (emitAll Code.ret)

end HackPlatform.Vm
