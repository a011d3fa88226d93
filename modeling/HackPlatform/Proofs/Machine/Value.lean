import HackPlatform.Machine.Basic

/-!
# Values of computations

The ALU works by control lines; here each computation that translated programs use gets the value
its name says, as an equation on words. `exec_compute` is the effect of an instruction whose cell,
if it needs one, is there.
-/

namespace HackPlatform

namespace Comp

/-- The result of a computation on D, A and the cell at A. -/
def value (c : Comp) (d a cell : UInt16) : UInt16 :=
  alu d (if c.readsMemory then cell else a) c

/-! The complement turns sums into differences, and conjunctions into disjunctions. -/

theorem not_not_add (x y : UInt16) : ~~~(~~~x + y) = x - y := by
  simp only [UInt16.not_eq_neg_sub]
  grind

theorem not_add_not (x y : UInt16) : ~~~(x + ~~~y) = y - x := by
  rw [UInt16.add_comm, not_not_add]

theorem not_not_and_not (x y : UInt16) : ~~~(~~~x &&& ~~~y) = x ||| y := by
  rw [← UInt16.toBitVec_inj]
  simp [BitVec.not_and]

theorem add_not_zero (x : UInt16) : x + ~~~0 = x - 1 := by
  simp only [UInt16.not_eq_neg_sub]
  grind

theorem sub_not_zero (x : UInt16) : x - ~~~0 = x + 1 := by
  simp only [UInt16.not_eq_neg_sub]
  grind

variable (d a cell : UInt16)

@[simp] theorem value_zero : zero.value d a cell = 0 := by
  show (0 : UInt16) + 0 = 0
  rfl

@[simp] theorem value_minusOne : minusOne.value d a cell = 0xFFFF := by
  show ~~~(0 : UInt16) + 0 = 0xFFFF
  rfl

@[simp] theorem value_d : Comp.d.value d a cell = d := by
  show d &&& ~~~0 = d
  simp

@[simp] theorem value_a : Comp.a.value d a cell = a := by
  show ~~~0 &&& a = a
  simp

@[simp] theorem value_m : m.value d a cell = cell := by
  show ~~~0 &&& cell = cell
  simp

@[simp] theorem value_notM : notM.value d a cell = ~~~cell := by
  show ~~~(~~~0 &&& cell) = ~~~cell
  simp

@[simp] theorem value_negM : negM.value d a cell = -cell := by
  show ~~~(~~~0 + cell) = -cell
  rw [not_not_add, UInt16.zero_sub]

@[simp] theorem value_dMinusOne : dMinusOne.value d a cell = d - 1 :=
  add_not_zero d

@[simp] theorem value_aMinusOne : aMinusOne.value d a cell = a - 1 := by
  show ~~~0 + a = a - 1
  rw [UInt16.add_comm, add_not_zero]

@[simp] theorem value_mMinusOne : mMinusOne.value d a cell = cell - 1 := by
  show ~~~0 + cell = cell - 1
  rw [UInt16.add_comm, add_not_zero]

@[simp] theorem value_mPlusOne : mPlusOne.value d a cell = cell + 1 := by
  show ~~~(~~~0 + ~~~cell) = cell + 1
  rw [not_add_not, sub_not_zero]

@[simp] theorem value_dPlusA : dPlusA.value d a cell = d + a := rfl

@[simp] theorem value_dMinusA : dMinusA.value d a cell = d - a :=
  not_not_add d a

@[simp] theorem value_dPlusM : dPlusM.value d a cell = d + cell := rfl

@[simp] theorem value_mMinusD : mMinusD.value d a cell = cell - d :=
  not_add_not d cell

@[simp] theorem value_dAndM : dAndM.value d a cell = d &&& cell := rfl

@[simp] theorem value_dOrM : dOrM.value d a cell = d ||| cell :=
  not_not_and_not d cell

@[simp] theorem readsMemory_a : Comp.a.readsMemory = false := by decide
@[simp] theorem readsMemory_aMinusOne : aMinusOne.readsMemory = false := by decide
@[simp] theorem readsMemory_dMinusOne : dMinusOne.readsMemory = false := by decide
@[simp] theorem readsMemory_dPlusA : dPlusA.readsMemory = false := by decide
@[simp] theorem readsMemory_dMinusA : dMinusA.readsMemory = false := by decide

end Comp

/-- A word below the sign bit is above zero unless it is zero. -/
theorem Jump.taken_gt_iff {w : UInt16} (h : w < 32768) : Jump.gt.taken w = true ↔ w ≠ 0 := by
  have bound : w.toNat < 32768 := h
  have value : w.toInt16.toInt = w.toNat := by
    rw [← Int16.toInt_toBitVec]
    simp only [UInt16.toBitVec_toInt16, BitVec.toInt_eq_toNat_cond, UInt16.toNat_toBitVec]
    omega
  rw [Jump.taken, decide_eq_true_iff, Int16.lt_iff_toInt_lt, value, ne_eq, ← UInt16.toNat_inj]
  simp only [Int16.toInt_zero, UInt16.toNat_zero]
  omega

/-- Whether the instruction after this one is always the next. -/
def Instr.falls : Instr → Bool
  | .address _ => true
  | .compute _ _ jump => jump = .never

namespace Machine

variable {m : Machine} {dest : Dest} {comp : Comp} {jump : Jump}

/-- The effect of a computation, when the cell it reads or writes, if any, is there. -/
theorem exec_compute (h : m.a.toNat < m.ram.size ∨ firstAccess? dest comp = none) :
    m.exec (.compute dest comp jump) =
      let v := comp.value m.d m.a (m.ram.peek m.a)
      .ok
        { pc := if jump.taken v then m.a else m.pc
          a := if dest.a then v else m.a
          d := if dest.d then v else m.d
          ram := if dest.m then m.ram.poke m.a v else m.ram } := by
  have access : (if m.a.toNat < m.ram.size then none else firstAccess? dest comp) = none := by
    rcases h with h | h
    · exact if_pos h
    · rw [h, ite_self]
  rw [exec_compute_eq, access]
  rfl

/-- An instruction that cannot jump does the same wherever the program counter is, and leaves it
there. -/
theorem exec_moved {i : Instr} {m' : Machine} (hi : i.falls = true) (h : m.exec i = .ok m')
    (p : UInt16) : exec { m with pc := p } i = .ok { m' with pc := p } := by
  cases i with
  | address v =>
    cases h
    rfl
  | compute dest comp jump =>
    have never : jump = .never := by simpa [Instr.falls] using hi
    subst never
    rw [exec_compute_eq] at h ⊢
    split at h
    · cases h
    · next access =>
      cases h
      rw [access]
      rfl

end Machine

end HackPlatform
