import HackPlatform.Instr.Mnemonic

/-!
# The binary form of instructions

A word with a clear top bit loads its value. A computation has three leading ones, then its seven
control lines, three destination bits and the jump code. Decoding is strict: another prefix, or
control lines without a name, are no instruction.
-/

namespace HackPlatform

/-- The three-bit code of a jump condition. -/
def Jump.code : Jump → UInt16
  | .never => 0
  | .gt => 1
  | .eq => 2
  | .ge => 3
  | .lt => 4
  | .ne => 5
  | .le => 6
  | .always => 7

/-- The jump condition of the low three bits of a word. -/
def Jump.ofCode (w : UInt16) : Jump :=
  match (w &&& 7).toNat with
  | 0 => .never
  | 1 => .gt
  | 2 => .eq
  | 3 => .ge
  | 4 => .lt
  | 5 => .ne
  | 6 => .le
  | _ => .always

theorem Jump.ofCode_code (jump : Jump) : Jump.ofCode jump.code = jump := by
  cases jump <;> rfl

/-- The three destination bits, A the highest and M the lowest. -/
def Dest.code (dest : Dest) : UInt16 :=
  (if dest.a then 4 else 0) ||| (if dest.d then 2 else 0) ||| if dest.m then 1 else 0

/-- The destination set of the low three bits of a word. -/
def Dest.ofCode (w : UInt16) : Dest :=
  ⟨w &&& 4 != 0, w &&& 2 != 0, w &&& 1 != 0⟩

theorem Dest.ofCode_code (dest : Dest) : Dest.ofCode dest.code = dest := by
  obtain ⟨a, d, m⟩ := dest
  cases a <;> cases d <;> cases m <;> rfl

/-- The leading ones of a computation. -/
def computePrefix : UInt16 := 0xE000

/-- The word of an instruction. Bits that its field has no room for are lost. -/
def Instr.encode : Instr → UInt16
  | .address value => value &&& 0x7FFF
  | .compute dest comp jump =>
    computePrefix ||| ((comp.bits &&& 0x7F).toUInt16 <<< 6) ||| (dest.code <<< 3) ||| jump.code

/-- The instruction that a word denotes, if it denotes one. -/
def Instr.decode? (w : UInt16) : Option Instr :=
  if w &&& 0x8000 == 0 then some (.address w)
  else if w &&& computePrefix != computePrefix then none
  else
    let comp : Comp := ⟨((w >>> 6) &&& 0x7F).toUInt8⟩
    if comp.isNamed then some (.compute (Dest.ofCode (w >>> 3)) comp (Jump.ofCode w)) else none

end HackPlatform
