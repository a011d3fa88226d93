import HackPlatform.Proofs.Vm.Agree
import HackPlatform.Proofs.Vm.Execution

/-!
# Operators in place

The block of an operator writes its result over the lowest operand, where the stack machine takes
the operands off and puts the result on. That is one effect on memory, wherever the operands lie
above the stack pointer's own cell.
-/

namespace HackPlatform

namespace Ram

variable {ram : Ram} {addr : UInt16}

theorem peek_drop (ram : Ram) (h : addr ≠ 0) : ram.drop.peek addr = ram.peek addr :=
  peek_poke_of_ne ram _ h

/-- One operand is replaced in memory as on the stack. -/
theorem Full.unary_eq (full : ram.Full) (top : ram.get .sp - 1 ≠ 0) (f : UInt16 → UInt16) :
    ram.unary f = ram.poke (ram.get .sp - 1) (f (ram.peek (ram.get .sp - 1))) :=
  full.drop_push top

/-- Two operands are replaced in memory as on the stack. -/
theorem Full.binary_eq (full : ram.Full) (below : ram.get .sp - 2 ≠ 0)
    (f : UInt16 → UInt16 → UInt16) :
    ram.binary f =
      ram.drop.poke (ram.get .sp - 2)
        (f (ram.peek (ram.get .sp - 2)) (ram.peek (ram.get .sp - 1))) := by
  have under : ram.drop.get .sp - 1 = ram.get .sp - 2 := by
    rw [full.get_sp_drop]
    grind
  have first : ram.drop.top = ram.peek (ram.get .sp - 2) := by
    rw [Ram.top, under, peek_drop ram below]
  rw [Ram.binary, (full_drop.2 full).drop_push (under ▸ below), under, first]
  rfl

@[simp] theorem full_unary {f : UInt16 → UInt16} : (ram.unary f).Full ↔ ram.Full := by
  simp [Ram.unary]

@[simp] theorem full_binary {f : UInt16 → UInt16 → UInt16} : (ram.binary f).Full ↔ ram.Full := by
  simp [Ram.binary]

end Ram

namespace Vm

open Asm (Stands behind)
open Machine (Lands)

theorem Code.truth_taken (r : Relation) (d : UInt16) :
    truth ((condition r).taken d) = if r.holds d then 0xFFFF else 0 := by
  cases r <;> rfl

namespace Operator

theorem full_effect {ram : Ram} (op : Operator) : (op.effect ram).Full ↔ ram.Full := by
  cases op <;> simp [effect]

variable {rom : Rom} {address : Symbol → UInt16} {m : Machine}

/-- The block of an operator makes of the whole memory what the operator makes of it, if its
operands lie in memory and not in the cell of the stack pointer. -/
theorem lands (regs : Code.RegistersAt address) (full : m.ram.Full) {op : Operator} {number : Nat}
    (stands : Stands rom address m.pc (op.code number))
    (cells : ∀ cell ∈ (Command.operate op).cells m.ram, cell ≠ 0 ∧ cell < 32768) :
    ∃ n, Lands rom m (n + 1) (behind m.pc (op.code number)) (op.effect m.ram) := by
  have top : m.ram.get .sp - 1 ≠ 0 ∧ m.ram.get .sp - 1 < 32768 := by
    apply cells
    cases op <;> simp [Command.cells, arity]
  have unary {comp : Comp} {f : UInt16 → UInt16}
      (stands : Stands rom address m.pc (Code.unary comp))
      (value : ∀ d a y, comp.value d a y = f y) :
      Lands rom m 3 (behind m.pc (Code.unary comp)) (m.ram.unary f) := by
    have lands := Code.unary_lands regs full stands top.2
    rwa [value, ← full.unary_eq top.1] at lands
  have below (two : op.arity = 2) : m.ram.get .sp - 2 ≠ 0 ∧ m.ram.get .sp - 2 < 32768 := by
    apply cells
    simp [Command.cells, two]
  have binary {comp : Comp} {f : UInt16 → UInt16 → UInt16} (two : op.arity = 2)
      (stands : Stands rom address m.pc (Code.binary comp))
      (value : ∀ a x y, comp.value y a x = f x y) :
      Lands rom m 5 (behind m.pc (Code.binary comp)) (m.ram.binary f) := by
    have lands := Code.binary_lands regs full stands top.2 (below two).2
    rwa [value, Ram.peek_drop _ top.1, Ram.peek_drop _ (below two).1,
      ← full.binary_eq (below two).1] at lands
  cases op with
  | add => exact ⟨4, binary rfl stands fun a x y => by rw [Comp.value_dPlusM, UInt16.add_comm]⟩
  | sub => exact ⟨4, binary rfl stands fun a x y => Comp.value_mMinusD y a x⟩
  | and => exact ⟨4, binary rfl stands fun a x y => by rw [Comp.value_dAndM, UInt16.and_comm]⟩
  | or => exact ⟨4, binary rfl stands fun a x y => by rw [Comp.value_dOrM, UInt16.or_comm]⟩
  | neg => exact ⟨2, unary stands fun d a y => Comp.value_negM d a y⟩
  | not => exact ⟨2, unary stands fun d a y => Comp.value_notM d a y⟩
  | compare r =>
    obtain ⟨k, lands⟩ := Code.compare_lands regs full stands top.2 (below rfl).2
    rw [Code.truth_taken, Ram.peek_drop _ top.1, Ram.peek_drop _ (below rfl).1] at lands
    refine ⟨k, ?_⟩
    rw [effect, full.binary_eq (below rfl).1]
    exact lands

end Operator

end Vm

end HackPlatform
