import HackPlatform.Proofs.Machine.Iteration
import HackPlatform.Proofs.Machine.Trap

/-!
# What a step leaves alone

A step that is impossible has not begun: registers and memory are as they were, whichever of its
parts was refused. A step that is possible writes to one cell at most, the one at A. So memory keeps
its size over every run, also over one that traps.
-/

namespace HackPlatform

/-- A write to one cell is none to the others. -/
theorem Ram.getElem?_poke_of_ne {r : Ram} {addr value : UInt16} {i : Nat} (h : i ≠ addr.toNat) :
    (r.poke addr value).words[i]? = r.words[i]? :=
  Array.getElem?_setIfInBounds_ne h.symm

namespace Machine

variable {rom : Rom} {m m' : Machine} {crash : Crash}

/-- The second state has the data of the first; its program counter may be another. -/
structure SameData (m m' : Machine) : Prop where
  a : m'.a = m.a
  d : m'.d = m.d
  ram : m'.ram = m.ram

/-- The instruction at the program counter needs the cell at A, as its operand or for its result. -/
def NeedsCell (rom : Rom) (m : Machine) : Prop :=
  ∃ dest comp jump, rom.instr? m.pc = some (.compute dest comp jump) ∧
    (comp.readsMemory = true ∨ dest.m = true)

/-- The instruction at the program counter writes its result to the cell at A. -/
def WritesCell (rom : Rom) (m : Machine) : Prop :=
  ∃ dest comp jump, rom.instr? m.pc = some (.compute dest comp jump) ∧ dest.m = true

theorem Blocked.sameData (h : Blocked rom m crash) : SameData m crash.machine := by
  cases h with
  | outside none => exact ⟨rfl, rfl, rfl⟩
  | invalid there none => exact ⟨rfl, rfl, rfl⟩
  | bus here needs missing => exact ⟨rfl, rfl, rfl⟩

/-- The bus refuses exactly the cell that an instruction needs and memory has not. -/
theorem exists_bus_iff {addr : UInt16} :
    (∃ fault left, step rom m = .error ⟨.bus addr fault, left⟩) ↔
      NeedsCell rom m ∧ m.ram.size ≤ m.a.toNat ∧ addr = m.a := by
  constructor
  · rintro ⟨fault, left, stuck⟩
    cases step_eq_error_iff.1 stuck with
    | bus here needs missing =>
      have uses := isSome_firstAccess?.1 (Option.isSome_of_eq_some needs)
      exact ⟨⟨_, _, _, here, uses⟩, missing, rfl⟩
  · rintro ⟨⟨dest, comp, jump, here, uses⟩, missing, rfl⟩
    obtain ⟨access, needs⟩ := Option.isSome_iff_exists.1 (isSome_firstAccess?.2 uses)
    exact ⟨_, _, step_eq_error_iff.2 (.bus here needs missing)⟩

/-- A step that is possible executes the instruction at the program counter. -/
theorem exists_instr?_of_step (h : step rom m = .ok m') :
    ∃ i, rom.instr? m.pc = some i ∧ exec { m with pc := m.pc + 1 } i = .ok m' := by
  unfold step at h
  split at h
  · cases h
  · next word there =>
    split at h
    · cases h
    · next i decoded => exact ⟨i, instr?_of_fetch? there decoded, h⟩

/-- An instruction changes no cell but the one at A, and that only for its result. -/
theorem exec_cell {i : Instr} {k : Nat} (h : m.exec i = .ok m')
    (changed : m'.ram.words[k]? ≠ m.ram.words[k]?) :
    k = m.a.toNat ∧ ∃ dest comp jump, i = .compute dest comp jump ∧ dest.m = true := by
  cases i with
  | address value =>
    cases h
    exact absurd rfl changed
  | compute dest comp jump =>
    rw [exec_compute_eq] at h
    split at h
    · cases h
    · cases h
      dsimp only at changed
      split at changed
      · next writes =>
        have place : k = m.a.toNat :=
          Decidable.byContradiction fun other => changed (Ram.getElem?_poke_of_ne other)
        exact ⟨place, dest, comp, jump, rfl, writes⟩
      · exact absurd rfl changed

theorem step_cell {k : Nat} (h : step rom m = .ok m')
    (changed : m'.ram.words[k]? ≠ m.ram.words[k]?) : k = m.a.toNat ∧ WritesCell rom m := by
  obtain ⟨i, here, done⟩ := exists_instr?_of_step h
  obtain ⟨place, dest, comp, jump, rfl, writes⟩ := exec_cell done changed
  exact ⟨place, dest, comp, jump, here, writes⟩

/-- A run ends with as many cells as it began with, however it ends. -/
theorem size_run (rom : Rom) (m : Machine) (limit : Nat) :
    (run rom m limit).machine.ram.size = m.ram.size := by
  obtain ⟨s, walk, ends⟩ := exists_walks rom m limit
  generalize (run rom m limit).machine = last, (run rom m limit).ending = ending at ends
  rw [← size_advance walk.arrives]
  cases ends with
  | cut all => rfl
  | rest few rests => rfl
  | crash few awake stuck => rw [(step_eq_error_iff.1 stuck).sameData.ram]

/-- What a step leaves alone, whether it is possible or not. The bus refuses a cell exactly where it
is needed and missing, and the trap names it; at most one cell is another after a step. -/
structure StepsAtomically (rom : Rom) (m : Machine) : Prop where
  data : ∀ crash, step rom m = .error crash → SameData m crash.machine
  outside : ∀ pc left, step rom m = .error ⟨.outsideRom pc, left⟩ → left.pc = m.pc
  invalid : ∀ pc word left, step rom m = .error ⟨.invalidInstruction pc word, left⟩ →
    left.pc = m.pc
  bus : ∀ addr fault left, step rom m = .error ⟨.bus addr fault, left⟩ → left.pc = m.pc + 1
  refused : ∀ addr, (∃ fault left, step rom m = .error ⟨.bus addr fault, left⟩) ↔
    NeedsCell rom m ∧ m.ram.size ≤ m.a.toNat ∧ addr = m.a
  size : ∀ m', step rom m = .ok m' → m'.ram.size = m.ram.size
  cell : ∀ m', step rom m = .ok m' → ∀ k, m'.ram.words[k]? ≠ m.ram.words[k]? →
    k = m.a.toNat ∧ WritesCell rom m

/-- Every step is atomic, so no run changes the size of memory. -/
theorem steps_atomically (rom : Rom) (m : Machine) :
    StepsAtomically rom m ∧
      (∀ n m', m.advance rom n = .ok m' → m'.ram.size = m.ram.size) ∧
      ∀ limit, (run rom m limit).machine.ram.size = m.ram.size := by
  refine ⟨?_, fun n m' => size_advance, size_run rom m⟩
  constructor
  case data =>
    intro crash stuck
    exact (step_eq_error_iff.1 stuck).sameData
  case outside =>
    intro pc left stuck
    cases step_eq_error_iff.1 stuck
    rfl
  case invalid =>
    intro pc word left stuck
    cases step_eq_error_iff.1 stuck
    rfl
  case bus =>
    intro addr fault left stuck
    cases step_eq_error_iff.1 stuck
    rfl
  case refused =>
    intro addr
    exact exists_bus_iff
  case size =>
    intro m' done
    exact size_step done
  case cell =>
    intro m' done k changed
    exact step_cell done changed

/-- A program of one instruction that reads a cell, writes to all places and jumps:
`AMD=M+1;JMP`. -/
def greedy : Rom := ⟨#[0xFDFF]⟩

/-- With two cells it is refused the third, before it has changed anything; with three it changes
the third and no other. -/
theorem steps_atomically_greedy :
    (∃ fault left, step greedy ⟨0, 2, 9, .zeros 2⟩ = .error ⟨.bus 2 fault, left⟩ ∧
      SameData ⟨0, 2, 9, .zeros 2⟩ left ∧ left.pc = 1) ∧
    ∃ m', step greedy ⟨0, 2, 9, .zeros 3⟩ = .ok m' ∧ m'.ram.size = 3 ∧
      ∀ k, m'.ram.words[k]? ≠ (Ram.zeros 3).words[k]? → k = 2 := by
  have refused := (steps_atomically greedy ⟨0, 2, 9, .zeros 2⟩).1
  have done := (steps_atomically greedy ⟨0, 2, 9, .zeros 3⟩).1
  have needs : NeedsCell greedy ⟨0, 2, 9, .zeros 2⟩ :=
    ⟨⟨true, true, true⟩, .mPlusOne, .always, by decide, .inl (by decide)⟩
  obtain ⟨fault, left, stuck⟩ := (refused.refused 2).2 ⟨needs, by decide, rfl⟩
  have possible : step greedy ⟨0, 2, 9, .zeros 3⟩ = .ok ⟨2, 1, 1, (Ram.zeros 3).poke 2 1⟩ := by
    rfl
  exact ⟨⟨fault, left, stuck, refused.data _ stuck, refused.bus _ _ _ stuck⟩,
    _, possible, done.size _ possible, fun k changed => (done.cell _ possible k changed).1⟩

end Machine

end HackPlatform
