import HackPlatform.Proofs.Asm.Effect
import HackPlatform.Proofs.Vm.Memory
import HackPlatform.Vm.Block

/-!
# Effects of the pieces of code

Every block is put together from a few pieces. Each has its effect on memory stated here from any
state of the registers A and D, in the words of the stack machine's memory.
-/

namespace HackPlatform.Vm.Code

open Asm

variable {address : Symbol → UInt16} {m : Machine}

/-- The names of registers stand for their cells. -/
def RegistersAt (address : Symbol → UInt16) : Prop :=
  ∀ r, address (.register r) = r.cell

variable (regs : RegistersAt address) (full : m.ram.Full)

include regs full

/-- A register is read into D. -/
theorem execAll_read (r : Register) :
    execAll address m [addr r, .assign .onlyD .m] =
      .ok { m with a := r.cell, d := m.ram.get r } := by
  simp only [addr, full, r.cell_bound, execAll_reference, execAll_onlyD, regs r, Comp.value_m,
    execAll_nil, Ram.get]

theorem execAll_pushD (bound : m.ram.get .sp < 32768) (base : m.ram.get .sp ≠ 0) :
    execAll address m pushD = .ok { m with a := 0, ram := m.ram.push m.d } := by
  have keep : (m.ram.poke (m.ram.get .sp) m.d).get .sp = m.ram.get .sp :=
    Ram.peek_poke_of_ne m.ram m.d base.symm
  simp only [Ram.get] at bound keep
  simp only [pushD, addr, full, Ram.full_poke, Register.cell_bound, bound,
    execAll_reference, execAll_onlyA, execAll_onlyM, regs _, Comp.value_m, Comp.value_d,
    Comp.value_mPlusOne, execAll_nil, Ram.push, Ram.get, Ram.set, keep]
  rfl

theorem execAll_popD (bound : m.ram.get .sp - 1 < 32768) :
    execAll address m popD =
      .ok { m with
        a := m.ram.get .sp - 1
        d := m.ram.drop.peek (m.ram.get .sp - 1)
        ram := m.ram.drop } := by
  simp only [Ram.get] at bound
  simp only [popD, addr, full, Ram.full_poke, Register.cell_bound, bound,
    execAll_reference, execAll_aAndM, execAll_onlyD, regs _, Comp.value_m,
    Comp.value_mMinusOne, execAll_nil, Ram.drop, Ram.get, Ram.set]

theorem execAll_save (r : Register) (bound : m.ram.get .sp < 32768) (base : m.ram.get .sp ≠ 0) :
    execAll address m (save r) =
      .ok { m with a := 0, d := m.ram.get r, ram := m.ram.save r } := by
  rw [Code.save, execAll_append, execAll_read regs full]
  exact execAll_pushD regs full bound base

/-- A register is restored from the frame, whose address is kept in R13. -/
theorem execAll_restore (r : Register) (distance : UInt16)
    (bound : m.ram.get .r13 - distance < 32768) :
    execAll address m (restore r distance) =
      .ok { m with
        a := r.cell
        d := m.ram.peek (m.ram.get .r13 - distance)
        ram := m.ram.restore (m.ram.get .r13) r distance } := by
  simp only [Ram.get] at bound
  simp only [restore, addr, full, Register.cell_bound, bound, execAll_reference, execAll_load,
    execAll_onlyD, execAll_onlyA_of_registers, execAll_onlyM, regs _, Comp.value_m, Comp.value_d,
    Comp.value_dMinusA, Comp.readsMemory_dMinusA, execAll_nil, Ram.restore, Ram.get, Ram.set]

end HackPlatform.Vm.Code
