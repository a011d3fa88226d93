/-!
# Instructions of the Hack computer

An instruction either loads an address register value or computes with the ALU, stores the result in
a set of destinations and may jump. The computation is given by its control lines, so that every
setting of them has a meaning for the ALU; the 28 settings with a name are listed in
`Instr/Mnemonic`.
-/

namespace HackPlatform

/-- The control lines of a computation: the operand selector `a` in bit 6 and the ALU's
`zx nx zy ny f no` in bits 5 to 0. -/
structure Comp where
  bits : UInt8
  deriving DecidableEq, Repr

namespace Comp

/-- The second operand is the memory cell at A instead of A itself. -/
def readsMemory (c : Comp) : Bool :=
  c.bits &&& 0x40 != 0

def zero : Comp := ⟨0b0101010⟩
def one : Comp := ⟨0b0111111⟩
def minusOne : Comp := ⟨0b0111010⟩
def d : Comp := ⟨0b0001100⟩
def a : Comp := ⟨0b0110000⟩
def notD : Comp := ⟨0b0001101⟩
def notA : Comp := ⟨0b0110001⟩
def negD : Comp := ⟨0b0001111⟩
def negA : Comp := ⟨0b0110011⟩
def dPlusOne : Comp := ⟨0b0011111⟩
def aPlusOne : Comp := ⟨0b0110111⟩
def dMinusOne : Comp := ⟨0b0001110⟩
def aMinusOne : Comp := ⟨0b0110010⟩
def dPlusA : Comp := ⟨0b0000010⟩
def dMinusA : Comp := ⟨0b0010011⟩
def aMinusD : Comp := ⟨0b0000111⟩
def dAndA : Comp := ⟨0b0000000⟩
def dOrA : Comp := ⟨0b0010101⟩
def m : Comp := ⟨0b1110000⟩
def notM : Comp := ⟨0b1110001⟩
def negM : Comp := ⟨0b1110011⟩
def mPlusOne : Comp := ⟨0b1110111⟩
def mMinusOne : Comp := ⟨0b1110010⟩
def dPlusM : Comp := ⟨0b1000010⟩
def dMinusM : Comp := ⟨0b1010011⟩
def mMinusD : Comp := ⟨0b1000111⟩
def dAndM : Comp := ⟨0b1000000⟩
def dOrM : Comp := ⟨0b1010101⟩

end Comp

/-- The set of places that take the result of a computation. -/
structure Dest where
  a : Bool
  d : Bool
  m : Bool
  deriving DecidableEq, Repr

namespace Dest

/-- The result is dropped. -/
def none : Dest := ⟨false, false, false⟩

def onlyA : Dest := ⟨true, false, false⟩
def onlyD : Dest := ⟨false, true, false⟩
def onlyM : Dest := ⟨false, false, true⟩
def aAndM : Dest := ⟨true, false, true⟩

/-- Whether the result is dropped. -/
def isNone (dest : Dest) : Bool :=
  !(dest.a || dest.d || dest.m)

end Dest

/-- When a computation jumps, by the sign of its result. -/
inductive Jump
  | never
  | gt
  | eq
  | ge
  | lt
  | ne
  | le
  | always
  deriving DecidableEq, Repr

/-- Whether the jump is taken for a result, read as a signed word. -/
def Jump.taken (result : UInt16) : Jump → Bool
  | .never => false
  | .gt => 0 < result.toInt16
  | .eq => result == 0
  | .ge => 0 ≤ result.toInt16
  | .lt => result.toInt16 < 0
  | .ne => result != 0
  | .le => result.toInt16 ≤ 0
  | .always => true

/-- An instruction: load a value into A, or compute, store and perhaps jump. -/
inductive Instr
  | address (value : UInt16)
  | compute (dest : Dest) (comp : Comp) (jump : Jump)
  deriving DecidableEq, Repr

/-- The largest value that an instruction can load into A, and the last address of instruction and
data memory. -/
def maxAddress : UInt16 := 0x7FFF

end HackPlatform
