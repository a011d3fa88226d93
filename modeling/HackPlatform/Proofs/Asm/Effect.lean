import HackPlatform.Proofs.Asm.Stands
import HackPlatform.Proofs.Machine.Full

/-!
# Effects, statement by statement

The equations by which the effect of a piece of code is computed from its front on the full memory,
with the state, the addresses of the names and the code that follows all arbitrary.
-/

namespace HackPlatform.Asm

open Machine

variable {ν : Type} {address : ν → UInt16} {m : Machine} {comp : Comp}
  {code : List (Statement ν)}

theorem execAll_nil : execAll address m [] = .ok m := rfl

theorem execAll_reference (name : ν) :
    execAll address m (.reference name :: code) = execAll address { m with a := address name } code :=
  rfl

theorem execAll_load (v : UInt16) :
    execAll address m (.load v :: code) = execAll address { m with a := v } code := rfl

theorem execAll_assign {dest : Dest} {next : Machine}
    (h : m.exec (.compute dest comp .never) = .ok next) :
    execAll address m (.assign dest comp :: code) = execAll address next code := by
  simp only [execAll, Statement.assign, List.foldlM_cons, Statement.exec, h]
  rfl

/-- `A=comp`. -/
theorem execAll_onlyA (full : m.ram.Full) (h : m.a < 32768) :
    execAll address m (.assign .onlyA comp :: code) =
      execAll address { m with a := comp.value m.d m.a (m.ram.peek m.a) } code :=
  execAll_assign (exec_assign full h)

/-- `A=comp` without memory. -/
theorem execAll_onlyA_of_registers (h : comp.readsMemory = false) :
    execAll address m (.assign .onlyA comp :: code) =
      execAll address { m with a := comp.value m.d m.a (m.ram.peek m.a) } code :=
  execAll_assign (exec_assign_of_registers (by simp [firstAccess?, h, Dest.onlyA]))

/-- `D=comp`. -/
theorem execAll_onlyD (full : m.ram.Full) (h : m.a < 32768) :
    execAll address m (.assign .onlyD comp :: code) =
      execAll address { m with d := comp.value m.d m.a (m.ram.peek m.a) } code :=
  execAll_assign (exec_assign full h)

/-- `D=comp` without memory. -/
theorem execAll_onlyD_of_registers (h : comp.readsMemory = false) :
    execAll address m (.assign .onlyD comp :: code) =
      execAll address { m with d := comp.value m.d m.a (m.ram.peek m.a) } code :=
  execAll_assign (exec_assign_of_registers (by simp [firstAccess?, h, Dest.onlyD]))

/-- `M=comp`. -/
theorem execAll_onlyM (full : m.ram.Full) (h : m.a < 32768) :
    execAll address m (.assign .onlyM comp :: code) =
      execAll address
        { m with ram := m.ram.poke m.a (comp.value m.d m.a (m.ram.peek m.a)) } code :=
  execAll_assign (exec_assign full h)

/-- `AM=comp`. -/
theorem execAll_aAndM (full : m.ram.Full) (h : m.a < 32768) :
    execAll address m (.assign .aAndM comp :: code) =
      execAll address
        { m with
          a := comp.value m.d m.a (m.ram.peek m.a)
          ram := m.ram.poke m.a (comp.value m.d m.a (m.ram.peek m.a)) } code :=
  execAll_assign (exec_assign full h)

end HackPlatform.Asm
