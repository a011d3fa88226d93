import HackPlatform.Proofs.Machine.Value

/-!
# The full data memory

A memory of 32768 words answers exactly the addresses below 32768, so a bound on a word is all that
an access needs. The lemmas on `exec` are the form in which instructions are used on such a memory:
one for each place that takes the result.
-/

namespace HackPlatform

namespace Ram

variable {r : Ram} {addr value : UInt16}

/-- Memory has all its 32768 words. -/
def Full (r : Ram) : Prop :=
  r.size = fullSize

@[simp] theorem full_poke : (r.poke addr value).Full ↔ r.Full := by
  simp [Full]

theorem Full.lt_size (full : r.Full) (h : addr < 32768) : addr.toNat < r.size := by
  rw [full]
  exact h

/-- The cell that was written holds the word. -/
theorem Full.peek_poke (full : r.Full) (h : addr < 32768) : (r.poke addr value).peek addr = value :=
  peek_poke_self value (full.lt_size h)

end Ram

namespace Machine

variable {m : Machine} {dest : Dest} {comp : Comp}

theorem exec_assign (full : m.ram.Full) (h : m.a < 32768) :
    m.exec (.compute dest comp .never) =
      let v := comp.value m.d m.a (m.ram.peek m.a)
      .ok
        { m with
          a := if dest.a then v else m.a
          d := if dest.d then v else m.d
          ram := if dest.m then m.ram.poke m.a v else m.ram } := by
  rw [exec_compute (.inl (full.lt_size h))]
  rfl

/-- A computation on the registers alone needs no cell. -/
theorem exec_assign_of_registers (h : firstAccess? dest comp = none) :
    m.exec (.compute dest comp .never) =
      let v := comp.value m.d m.a (m.ram.peek m.a)
      .ok
        { m with
          a := if dest.a then v else m.a
          d := if dest.d then v else m.d
          ram := if dest.m then m.ram.poke m.a v else m.ram } := by
  rw [exec_compute (.inr h)]
  rfl

end Machine

end HackPlatform
