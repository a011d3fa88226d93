import HackPlatform.Proofs.Machine.Full
import HackPlatform.Vm.Symbol

/-!
# The memory of the stack machine

The stack machine keeps its registers in the first cells of data memory and its stack above them:
the stack pointer is the address just past the topmost word. Commands change memory by the
operations below, which read and write one cell after the other, so they have a meaning also when
the stack, a segment and the registers overlap.
-/

namespace HackPlatform

/-- The cell of a register. -/
def Vm.Register.cell : Vm.Register → UInt16
  | .sp => 0
  | .lcl => 1
  | .arg => 2
  | .this => 3
  | .that => 4
  | .r13 => 13
  | .r14 => 14

theorem Vm.Register.cell_lt (r : Vm.Register) : r.cell < 16 := by
  cases r <;> decide

theorem Vm.Register.cell_bound (r : Vm.Register) : r.cell < 32768 := by
  cases r <;> decide

theorem Vm.Register.cell_injective {r s : Vm.Register} (h : r.cell = s.cell) : r = s := by
  cases r <;> cases s <;> first | rfl | cases h

namespace Ram

open Vm (Register)

/-- The content of a register. -/
def get (ram : Ram) (r : Register) : UInt16 :=
  ram.peek r.cell

/-- Memory with a register set. -/
def set (ram : Ram) (r : Register) (w : UInt16) : Ram :=
  ram.poke r.cell w

/-- A word is put on the stack. -/
def push (ram : Ram) (w : UInt16) : Ram :=
  (ram.poke (ram.get .sp) w).set .sp (ram.get .sp + 1)

/-- The topmost word. -/
def top (ram : Ram) : UInt16 :=
  ram.peek (ram.get .sp - 1)

/-- The topmost word is taken off. -/
def drop (ram : Ram) : Ram :=
  ram.set .sp (ram.get .sp - 1)

/-- Zeros are put on the stack. -/
def clear (ram : Ram) : Nat → Ram
  | 0 => ram
  | n + 1 => (ram.push 0).clear n

/-- The content of a register is put on the stack. -/
def save (ram : Ram) (r : Register) : Ram :=
  ram.push (ram.get r)

/-- A call saves the return address and the caller's frame, and sets the callee's frame: its
arguments start `offset` words below the new top of the stack, and its local variables at the top. -/
def enter (ram : Ram) (back offset : UInt16) : Ram :=
  let saved := (((ram.push back).save .lcl).save .arg).save .this |>.save .that
  let framed := saved.set .arg (saved.get .sp - offset)
  framed.set .lcl (framed.get .sp)

/-- A register is set to the word at a distance below the frame. -/
def restore (frame : UInt16) (ram : Ram) (r : Register) (distance : UInt16) : Ram :=
  ram.set r (ram.peek (frame - distance))

/-- A return hands the topmost word over as the caller's result, and takes the caller's registers
from the frame. -/
def leave (frame : UInt16) (ram : Ram) : Ram :=
  let handed := ram.drop.poke (ram.get .arg) ram.top
  let cut := handed.set .sp (handed.get .arg + 1)
  let that := cut.restore frame .that 1
  let this := that.restore frame .this 2
  let arg := this.restore frame .arg 3
  arg.restore frame .lcl 4

theorem clear_succ (ram : Ram) (n : Nat) : ram.clear (n + 1) = (ram.push 0).clear n := rfl

section Lemmas

variable {ram : Ram} {r s : Register} {addr w : UInt16}

@[simp] theorem full_set : (ram.set r w).Full ↔ ram.Full := full_poke

@[simp] theorem full_push : (ram.push w).Full ↔ ram.Full := by
  simp [push]

@[simp] theorem full_drop : ram.drop.Full ↔ ram.Full := full_set

@[simp] theorem full_save : (ram.save r).Full ↔ ram.Full := full_push

@[simp] theorem full_restore {frame distance : UInt16} :
    (ram.restore frame r distance).Full ↔ ram.Full := full_set

@[simp] theorem full_enter {back offset : UInt16} : (ram.enter back offset).Full ↔ ram.Full := by
  simp [enter]

@[simp] theorem full_leave {frame : UInt16} : (ram.leave frame).Full ↔ ram.Full := by
  simp [leave]

theorem full_clear {n : Nat} : (ram.clear n).Full ↔ ram.Full := by
  induction n generalizing ram with
  | zero => rfl
  | succ n ih => exact ih.trans full_push

/-- A register that was set holds the word. -/
theorem Full.get_set (full : ram.Full) : (ram.set r w).get r = w :=
  full.peek_poke r.cell_bound

/-- The other registers keep their words. -/
theorem get_set_of_ne (h : s ≠ r) : (ram.set r w).get s = ram.get s :=
  peek_poke_of_ne ram w fun e => h (Register.cell_injective e)

/-- Bounds on addresses are bounds on numbers. -/
theorem above_iff : 16 ≤ addr ↔ 16 ≤ addr.toNat := Iff.rfl

theorem below_iff : addr < 32768 ↔ addr.toNat < 32768 := Iff.rfl

/-- No register lies at 16 or above. -/
theorem cell_ne (h : 16 ≤ addr) : r.cell ≠ addr := by
  have := r.cell_lt
  grind

theorem get_poke (h : 16 ≤ addr) : (ram.poke addr w).get r = ram.get r :=
  peek_poke_of_ne ram w (cell_ne h)

theorem peek_set (h : 16 ≤ addr) : (ram.set r w).peek addr = ram.peek addr :=
  peek_poke_of_ne ram w (cell_ne h).symm

theorem Full.get_sp_push (full : ram.Full) : (ram.push w).get .sp = ram.get .sp + 1 :=
  Full.get_set (full_poke.2 full)

theorem Full.get_sp_drop (full : ram.Full) : ram.drop.get .sp = ram.get .sp - 1 :=
  full.get_set

/-- Writes to different cells may be exchanged. -/
theorem poke_comm (ram : Ram) {other : UInt16} (v w : UInt16) (h : addr ≠ other) :
    (ram.poke addr v).poke other w = (ram.poke other w).poke addr v :=
  congrArg Ram.mk (Array.setIfInBounds_comm v w fun same => h (UInt16.toNat_inj.1 same))

/-- Of two writes to one cell the later counts. -/
theorem poke_poke (ram : Ram) (addr v w : UInt16) :
    (ram.poke addr v).poke addr w = ram.poke addr w :=
  congrArg Ram.mk (Array.setIfInBounds_setIfInBounds v)

/-- A cell may be given the word it holds. -/
theorem poke_peek (ram : Ram) (addr : UInt16) : ram.poke addr (ram.peek addr) = ram := by
  obtain ⟨words⟩ := ram
  refine congrArg Ram.mk (Array.ext (by simp [peek]) fun i _ inside => ?_)
  rw [Array.getElem_setIfInBounds]
  split
  · next same => simp [peek, same, inside]
  · rfl

/-- A word that is put on the stack after one was taken off stands in its place. -/
theorem Full.drop_push (full : ram.Full) (h : ram.get .sp - 1 ≠ 0) :
    ram.drop.push w = ram.poke (ram.get .sp - 1) w := by
  have back : ram.get .sp - 1 + 1 = ram.get .sp := UInt16.sub_add_cancel _ _
  calc ram.drop.push w
      = ((ram.poke 0 (ram.get .sp - 1)).poke (ram.get .sp - 1) w).poke 0 (ram.get .sp) := by
        rw [push, full.get_sp_drop, back]
        rfl
    _ = (ram.poke (ram.get .sp - 1) w).poke 0 (ram.get .sp) := by
        rw [poke_comm _ _ _ h.symm, poke_poke]
    _ = (ram.poke 0 (ram.get .sp)).poke (ram.get .sp - 1) w := poke_comm _ _ _ h
    _ = ram.poke (ram.get .sp - 1) w := congrArg (poke · _ w) (poke_peek ram 0)

/-- A push leaves the other registers alone, unless the stack lies over them. -/
theorem get_push (h : 16 ≤ ram.get .sp) (hr : r ≠ .sp) : (ram.push w).get r = ram.get r := by
  rw [push, get_set_of_ne hr, get_poke h]

theorem get_drop (hr : r ≠ .sp) : ram.drop.get r = ram.get r :=
  get_set_of_ne hr

/-- A return leaves the registers alone that are no part of the frame. -/
theorem get_leave {frame : UInt16} (place : 16 ≤ ram.get .arg) (h : r = .r13 ∨ r = .r14) :
    (ram.leave frame).get r = ram.get r := by
  have other {s : Register} (hs : s ≠ .r13 ∧ s ≠ .r14) : r ≠ s := by
    rintro rfl
    exact h.elim hs.1 hs.2
  simp only [leave, restore]
  rw [get_set_of_ne (other (by decide)), get_set_of_ne (other (by decide)),
    get_set_of_ne (other (by decide)), get_set_of_ne (other (by decide)),
    get_set_of_ne (other (by decide)), get_poke place, get_drop (other (by decide))]

end Lemmas

end Ram

end HackPlatform
