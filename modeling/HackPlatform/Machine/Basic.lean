import HackPlatform.Instr.Encoding
import HackPlatform.Memory

/-!
# The Hack computer

The state is the three registers and data memory. One instruction reads everything it needs from
the old state, so the cell at A, A itself and D change at once, and a jump goes to the old A. The
bus is asked before a register changes: a refused access leaves all data as it was.
-/

namespace HackPlatform

/-- The ALU on `x` and `y`: zero and negate each input, add or conjoin, negate the output. -/
def alu (x y : UInt16) (comp : Comp) : UInt16 :=
  let x := if comp.bits &&& 0x20 != 0 then 0 else x
  let x := if comp.bits &&& 0x10 != 0 then ~~~x else x
  let y := if comp.bits &&& 0x08 != 0 then 0 else y
  let y := if comp.bits &&& 0x04 != 0 then ~~~y else y
  let out := if comp.bits &&& 0x02 != 0 then x + y else x &&& y
  if comp.bits &&& 0x01 != 0 then ~~~out else out

/-- The registers and data memory. -/
structure Machine where
  pc : UInt16
  a : UInt16
  d : UInt16
  ram : Ram
  deriving DecidableEq

/-- Why a step is impossible. -/
inductive Trap
  | invalidInstruction (pc word : UInt16)
  | outsideRom (pc : UInt16)
  | bus (addr : UInt16) (fault : BusFault)
  deriving DecidableEq, Repr

/-- The message of a trap. -/
def Trap.message : Trap → String
  | .invalidInstruction pc word =>
    "Invalid instruction 0x" ++ String.ofList (Text.hexDigits word) ++ " at " ++ Text.decimal pc
  | .outsideRom pc => "PC " ++ Text.decimal pc ++ " outside ROM"
  | .bus addr fault => "Bus error at " ++ Text.decimal addr ++ ": " ++ fault.message

/-- A trap together with the state it leaves behind. -/
structure Crash where
  trap : Trap
  machine : Machine
  deriving DecidableEq

namespace Machine

/-- All registers zero. -/
def start (ram : Ram) : Machine :=
  ⟨0, 0, 0, ram⟩

/-- A machine about to run from `pc`, with the other registers zero and memory kept. -/
def reset (m : Machine) (pc : UInt16) : Machine :=
  { m with pc := pc, a := 0, d := 0 }

/-- Executes one instruction, the program counter already past it. An access that the bus refuses
ends it with the state as it was. -/
def exec (m : Machine) : Instr → Except Crash Machine
  | .address value => .ok { m with a := value }
  | .compute dest comp jump =>
    -- The cell and the target of a jump are those of A before the instruction.
    match if comp.readsMemory then m.ram.read m.a else .ok m.a with
    | .error fault => .error ⟨.bus m.a fault, m⟩
    | .ok y =>
      let out := alu m.d y comp
      match if dest.m then m.ram.write m.a out else .ok m.ram with
      | .error fault => .error ⟨.bus m.a fault, m⟩
      | .ok ram =>
        .ok
          { pc := if jump.taken out then m.a else m.pc
            a := if dest.a then out else m.a
            d := if dest.d then out else m.d
            ram := ram }

/-- The bus access that a computation needs first. -/
def firstAccess? (dest : Dest) (comp : Comp) : Option Access :=
  if comp.readsMemory then some .read else if dest.m then some .write else none

/-- A computation whose cell is missing is refused at its first access; any other takes effect as a
whole. -/
theorem exec_compute_eq (m : Machine) (dest : Dest) (comp : Comp) (jump : Jump) :
    m.exec (.compute dest comp jump) =
      match if m.a.toNat < m.ram.size then none else firstAccess? dest comp with
      | some access => .error ⟨.bus m.a ⟨access, m.ram.size⟩, m⟩
      | none =>
        let out := alu m.d (if comp.readsMemory then m.ram.peek m.a else m.a) comp
        .ok
          { pc := if jump.taken out then m.a else m.pc
            a := if dest.a then out else m.a
            d := if dest.d then out else m.d
            ram := if dest.m then m.ram.poke m.a out else m.ram } := by
  unfold exec
  by_cases there : m.a.toNat < m.ram.size
  · simp only [if_pos there, Ram.read, Ram.write]
    cases comp.readsMemory <;> cases dest.m <;> rfl
  · simp only [if_neg there, Ram.read, Ram.write, firstAccess?]
    cases comp.readsMemory <;> cases dest.m <;> rfl

/-- Fetches, decodes and executes the instruction at the program counter. -/
def step (rom : Rom) (m : Machine) : Except Crash Machine :=
  match rom.fetch? m.pc with
  | none => .error ⟨.outsideRom m.pc, m⟩
  | some word =>
    match Instr.decode? word with
    | none => .error ⟨.invalidInstruction m.pc word, m⟩
    | some instr => exec { m with pc := m.pc + 1 } instr

end Machine

end HackPlatform
