import HackPlatform.Proofs.Machine.Iteration
import HackPlatform.Proofs.Machine.Trap

/-!
# Parked programs

A run ends where a program loads an address into A and jumps there, back to the load. Here is why it
may: the steps that it leaves out lead from the load to the jump and back for ever, and change
nothing but A and the program counter. The one thing that could stop them is a jump whose condition
is computed from a cell that is not there.
-/

namespace HackPlatform

/-- The cell that the jump behind the load at `loop` reads, if it reads one, is among `size` cells. -/
def Rom.HasLoopCell (rom : Rom) (loop : UInt16) (size : Nat) : Prop :=
  ∀ dest comp jump, rom.instr? (loop + 1) = some (.compute dest comp jump) →
    comp.readsMemory = false ∨ loop.toNat < size

namespace Machine

variable {rom : Rom} {m s t : Machine} {loop : UInt16} {k n limit : Nat}

/-- Where a program that was parked in `s` is after `n` steps: at the load and at the jump by
turns. -/
structure Parked (loop : UInt16) (s : Machine) (n : Nat) (t : Machine) : Prop where
  pc : t.pc = if n % 2 = 0 then loop else loop + 1
  a : n % 2 = 1 → t.a = loop
  d : t.d = s.d
  ram : t.ram = s.ram

theorem parked_zero (here : s.pc = loop) : Parked loop s 0 s :=
  ⟨here, fun odd => by omega, rfl, rfl⟩

/-- A jump that drops its result changes the program counter only. -/
theorem exec_dropped {dest : Dest} {comp : Comp} (dropped : dest.isNone = true)
    (cell : comp.readsMemory = false ∨ m.a.toNat < m.ram.size) :
    m.exec (.compute dest comp .always) = .ok { m with pc := m.a } := by
  simp only [Dest.isNone, Bool.not_eq_true', Bool.or_eq_false_iff] at dropped
  obtain ⟨⟨a, d⟩, m⟩ := dropped
  rw [exec_compute]
  · simp [Jump.taken, a, d, m]
  · obtain registers | there := cell
    · exact .inr (firstAccess?_eq_none_iff.2 (by simp [registers, m]))
    · exact .inl there

section Loop

variable (loops : rom.isSelfLoop loop = true) (cell : rom.HasLoopCell loop s.ram.size)

include loops

/-- Wherever a parked program is, there is an instruction. -/
theorem Parked.inside (h : Parked loop s n t) : t.pc.toNat < rom.size := by
  obtain ⟨load, dest, comp, jump, -⟩ := Rom.isSelfLoop_iff.1 loops
  rw [h.pc]
  split
  · exact Rom.lt_size_of_instr? load
  · exact Rom.lt_size_of_instr? jump

include cell

/-- A step leads from the load to the jump, or from the jump to the load. -/
theorem Parked.step (h : Parked loop s n t) :
    ∃ t', step rom t = .ok t' ∧ Parked loop s (n + 1) t' := by
  obtain ⟨load, dest, comp, jump, dropped⟩ := Rom.isSelfLoop_iff.1 loops
  have pc := h.pc
  by_cases even : n % 2 = 0
  · rw [if_pos even] at pc
    rw [← pc] at load
    rw [step_of_instr? load]
    refine ⟨_, rfl, ?_, ?_, h.d, h.ram⟩
    · rw [if_neg (by omega)]
      exact congrArg (· + 1) pc
    · intro odd
      exact pc
  · rw [if_neg even] at pc
    have a : t.a = loop := h.a (by omega)
    have there : comp.readsMemory = false ∨ t.a.toNat < t.ram.size := by
      rw [a, h.ram]
      exact cell dest comp .always jump
    rw [← pc] at jump
    rw [step_of_instr? jump, exec_dropped (m := { t with pc := t.pc + 1 }) dropped there]
    refine ⟨_, rfl, ?_, ?_, h.d, h.ram⟩
    · rw [if_pos (by omega)]
      exact a
    · intro odd
      exact a

/-- A parked program never stops of itself. -/
theorem exists_parked (here : s.pc = loop) (n : Nat) :
    ∃ t, s.advance rom n = .ok t ∧ Parked loop s n t := by
  induction n with
  | zero => exact ⟨s, rfl, parked_zero here⟩
  | succ n ih =>
    obtain ⟨t, run, parked⟩ := ih
    obtain ⟨t', stepped, parked⟩ := parked.step loops cell
    exact ⟨t', advance_trans run (advance_one stepped), parked⟩

end Loop

/-! ## Runs that do not look for loops -/

/-- A run that is not ended by a loop: only the limit is looked at, and the end of the program. -/
def runThrough (rom : Rom) (m : Machine) : (limit : Nat) → RunResult
  | 0 => ⟨m, 0, .ok .stepLimit⟩
  | limit + 1 =>
    if rom.size ≤ m.pc.toNat then ⟨m, 0, .ok .endOfProgram⟩
    else
      match step rom m with
      | .error crash => ⟨crash.machine, 0, .error crash.trap⟩
      | .ok next => (runThrough rom next limit).after 1

/-- While the program counter stays in the program, such a run is cut by its limit only. -/
theorem runThrough_of_inside (done : m.advance rom n = .ok t)
    (inside : ∀ j < n, ∀ between, m.advance rom j = .ok between → between.pc.toNat < rom.size) :
    runThrough rom m n = ⟨t, n, .ok .stepLimit⟩ := by
  induction n generalizing m with
  | zero =>
    cases done
    rfl
  | succ n ih =>
    have here : m.pc.toNat < rom.size := inside 0 (Nat.succ_pos n) m rfl
    cases stepped : step rom m with
    | error crash =>
      rw [advance_succ, stepped] at done
      cases done
    | ok next =>
      rw [advance_step stepped] at done
      have rest := ih done fun j small between there =>
        inside (j + 1) (Nat.succ_lt_succ small) between ((advance_step stepped).trans there)
      rw [runThrough, if_neg (by omega)]
      simp only [stepped, rest, RunResult.after]
      rw [Nat.add_comm]

/-- Steps before a loop and in it stay in the program. -/
theorem inside_of_walks (walk : Walks rom m k s) (loops : rom.isSelfLoop loop = true)
    (cell : rom.HasLoopCell loop s.ram.size) (here : s.pc = loop) :
    ∀ j between, m.advance rom j = .ok between → between.pc.toNat < rom.size := by
  intro j between there
  by_cases before : j < k
  · exact (Rom.rest?_eq_none_iff.1 (walk.awake j before between there)).1
  · have rest := advance_sub (by omega) walk.arrives there
    obtain ⟨t, run, parked⟩ := exists_parked loops cell here (j - k)
    cases rest.symm.trans run
    exact parked.inside loops

/-- A run that ends in a loop leaves out nothing but steps that never end and keep D and memory: it
has the same result under every larger limit, and without the look for loops it would have gone on
to its limit with D and memory as they are. -/
theorem run_parks (result : run rom m limit = ⟨s, k, .ok (.selfLoop loop)⟩)
    (cell : rom.HasLoopCell loop m.ram.size) :
    (∀ n, ∃ t, s.advance rom n = .ok t ∧ t.d = s.d ∧ t.ram = s.ram ∧
      t.pc = if n % 2 = 0 then loop else loop + 1) ∧
    (∀ larger, limit ≤ larger → run rom m larger = ⟨s, k, .ok (.selfLoop loop)⟩) ∧
    ∀ larger, k ≤ larger → ∃ t, runThrough rom m larger = ⟨t, larger, .ok .stepLimit⟩ ∧
      t.d = s.d ∧ t.ram = s.ram := by
  obtain ⟨last, walk, ends⟩ := run_iff.1 result
  obtain ⟨rfl, few, rfl, loops⟩ := ends_ok_iff.1 ends
  rw [← size_advance walk.arrives] at cell
  have parks := exists_parked loops cell rfl
  refine ⟨?_, ?_, ?_⟩
  · intro n
    obtain ⟨t, run, parked⟩ := parks n
    exact ⟨t, run, parked.d, parked.ram, parked.pc⟩
  · intro larger le
    rw [← result]
    apply run_eq_of_le le
    rw [result]
    intro same
    cases same
  · intro larger le
    obtain ⟨t, run, parked⟩ := parks (larger - k)
    have whole := advance_trans walk.arrives run
    rw [show k + (larger - k) = larger by omega] at whole
    have inside := inside_of_walks walk loops cell rfl
    exact ⟨t, runThrough_of_inside whole fun j _ => inside j, parked.d, parked.ram⟩

/-- A program that loads five into D and parks, the jump reading a cell: `@5`, `D=A`, `@2`,
`M;JMP`. -/
def parker : Rom := ⟨#[0x0005, 0xEC10, 0x0002, 0xFC07]⟩

/-- Three cells are just enough for it. -/
theorem run_parks_parker :
    run parker ⟨0, 9, 9, .zeros 3⟩ 100 = ⟨⟨2, 5, 5, .zeros 3⟩, 2, .ok (.selfLoop 2)⟩ ∧
    parker.HasLoopCell 2 (Ram.zeros 3).size ∧
    (∃ t, advance parker 1000001 ⟨2, 5, 5, .zeros 3⟩ = .ok t ∧ t.d = 5 ∧ t.ram = .zeros 3 ∧
      t.pc = 3) ∧
    run parker ⟨0, 9, 9, .zeros 3⟩ 1000001 = ⟨⟨2, 5, 5, .zeros 3⟩, 2, .ok (.selfLoop 2)⟩ ∧
    ∃ t, runThrough parker ⟨0, 9, 9, .zeros 3⟩ 1000001 = ⟨t, 1000001, .ok .stepLimit⟩ ∧ t.d = 5 ∧
      t.ram = .zeros 3 := by
  have result : run parker ⟨0, 9, 9, .zeros 3⟩ 100 =
      ⟨⟨2, 5, 5, .zeros 3⟩, 2, .ok (.selfLoop 2)⟩ := by
    rfl
  have cell : parker.HasLoopCell 2 (Ram.zeros 3).size := by
    intro _ _ _ _
    exact .inr (by decide)
  obtain ⟨forever, larger, through⟩ := run_parks result cell
  exact ⟨result, cell, forever 1000001, larger _ (by decide), through _ (by decide)⟩

end Machine

end HackPlatform
