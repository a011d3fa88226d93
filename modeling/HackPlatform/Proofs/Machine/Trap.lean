import HackPlatform.Proofs.Machine.Advance
import HackPlatform.Proofs.Machine.Value

/-!
# Traps

A step is impossible in three ways: no word is at the program counter, the word there is no
instruction, or the instruction needs a cell that memory has not. `step_eq_error_iff` gives the trap
and the state of each. A step that is possible never changes the size of memory, so the last way
stays the same over a whole run.
-/

namespace HackPlatform.Machine

variable {rom : Rom} {m m' : Machine} {dest : Dest} {comp : Comp} {jump : Jump} {crash : Crash}

/-- A computation needs its cell if it reads it or writes to it. -/
theorem isSome_firstAccess? :
    (firstAccess? dest comp).isSome = true ↔ comp.readsMemory = true ∨ dest.m = true := by
  unfold firstAccess?
  split
  · next reads => exact iff_of_true rfl (.inl reads)
  · next registers =>
    split
    · next writes => exact iff_of_true rfl (.inr writes)
    · next apart =>
      refine iff_of_false (fun h => by cases h) ?_
      rintro (reads | writes)
      · exact registers reads
      · exact apart writes

theorem firstAccess?_eq_none_iff :
    firstAccess? dest comp = none ↔ ¬(comp.readsMemory = true ∨ dest.m = true) := by
  rw [← isSome_firstAccess?, Option.not_isSome_iff_eq_none]

theorem exec_compute_of_access {access : Access} (missing : m.ram.size ≤ m.a.toNat)
    (needs : firstAccess? dest comp = some access) :
    m.exec (.compute dest comp jump) = .error ⟨.bus m.a ⟨access, m.ram.size⟩, m⟩ := by
  simp only [exec_compute_eq, if_neg (Nat.not_lt.2 missing), needs]

/-- An instruction is refused exactly where a computation needs a cell that is not there. -/
theorem exec_eq_error_iff {i : Instr} :
    m.exec i = .error crash ↔ ∃ dest comp jump access, i = .compute dest comp jump ∧
      firstAccess? dest comp = some access ∧ m.ram.size ≤ m.a.toNat ∧
      crash = ⟨.bus m.a ⟨access, m.ram.size⟩, m⟩ := by
  constructor
  · intro refused
    cases i with
    | address value => cases refused
    | compute dest comp jump =>
      by_cases there : m.a.toNat < m.ram.size
      · rw [exec_compute (.inl there)] at refused
        cases refused
      · cases needs : firstAccess? dest comp with
        | none =>
          rw [exec_compute (.inr needs)] at refused
          cases refused
        | some access =>
          rw [Nat.not_lt] at there
          rw [exec_compute_of_access there needs] at refused
          cases refused
          exact ⟨dest, comp, jump, access, rfl, needs, there, rfl⟩
  · rintro ⟨dest, comp, jump, access, rfl, needs, missing, rfl⟩
    exact exec_compute_of_access missing needs

theorem size_exec {i : Instr} (h : m.exec i = .ok m') : m'.ram.size = m.ram.size := by
  cases i with
  | address value =>
    cases h
    rfl
  | compute dest comp jump =>
    rw [exec_compute_eq] at h
    split at h
    · cases h
    · cases h
      dsimp only
      split
      · exact Ram.size_poke ..
      · rfl

/-- The ways in which a step is impossible, each with its trap and the state it leaves. -/
inductive Blocked (rom : Rom) (m : Machine) : Crash → Prop
  | outside : rom.fetch? m.pc = none → Blocked rom m ⟨.outsideRom m.pc, m⟩
  | invalid {word : UInt16} : rom.fetch? m.pc = some word → Instr.decode? word = none →
    Blocked rom m ⟨.invalidInstruction m.pc word, m⟩
  | bus {dest : Dest} {comp : Comp} {jump : Jump} {access : Access} :
    rom.instr? m.pc = some (.compute dest comp jump) → firstAccess? dest comp = some access →
    m.ram.size ≤ m.a.toNat →
    Blocked rom m ⟨.bus m.a ⟨access, m.ram.size⟩, { m with pc := m.pc + 1 }⟩

/-- The instruction at the program counter, for a step that got as far as executing it. -/
theorem instr?_of_fetch? {word : UInt16} {i : Instr} (there : rom.fetch? m.pc = some word)
    (decoded : Instr.decode? word = some i) : rom.instr? m.pc = some i := by
  rw [Rom.instr?, there]
  exact decoded

theorem step_eq_error_iff : step rom m = .error crash ↔ Blocked rom m crash := by
  constructor
  · intro stuck
    unfold step at stuck
    split at stuck
    · next none =>
      cases stuck
      exact .outside none
    · next word there =>
      split at stuck
      · next none =>
        cases stuck
        exact .invalid there none
      · next i decoded =>
        obtain ⟨dest, comp, jump, access, rfl, needs, missing, rfl⟩ := exec_eq_error_iff.1 stuck
        exact .bus (instr?_of_fetch? there decoded) needs missing
  · intro blocked
    cases blocked with
    | outside none => simp only [step, none]
    | invalid there none => simp only [step, there, none]
    | bus here needs missing =>
      rw [step_of_instr? here]
      exact exec_compute_of_access (m := { m with pc := m.pc + 1 }) missing needs

theorem size_step (h : step rom m = .ok m') : m'.ram.size = m.ram.size := by
  unfold step at h
  split at h
  · cases h
  · split at h
    · cases h
    · exact size_exec (m := { m with pc := m.pc + 1 }) h

theorem size_advance {n : Nat} (h : m.advance rom n = .ok m') : m'.ram.size = m.ram.size := by
  induction n generalizing m with
  | zero =>
    cases h
    rfl
  | succ n ih =>
    cases stepped : step rom m with
    | error crash =>
      rw [advance_succ, stepped] at h
      cases h
    | ok next =>
      rw [advance_step stepped] at h
      exact (ih h).trans (size_step stepped)

/-! ## The end of the program -/

/-- Behind the last word no step is possible. -/
theorem advance_of_outside {n : Nat} (outside : rom.size ≤ m.pc.toNat)
    (h : m.advance rom n = .ok m') : n = 0 := by
  cases n with
  | zero => rfl
  | succ n =>
    have none : rom.fetch? m.pc = none := Array.getElem?_eq_none_iff.2 outside
    rw [advance_succ, step_eq_error_iff.2 (.outside none)] at h
    cases h

/-- The machine comes to the end of the program in one way only. -/
theorem Lands.unique {a b : Nat} {pc : UInt16} {ram ram' : Ram} (outside : rom.size ≤ pc.toNat)
    (h : Lands rom m a pc ram) (h' : Lands rom m b pc ram') : ram = ram' := by
  obtain ⟨x, y, run⟩ := h
  obtain ⟨x', y', run'⟩ := h'
  rcases Nat.le_total a b with le | le
  · have rest := advance_sub le run run'
    rw [advance_of_outside outside rest] at rest
    cases rest
    rfl
  · have rest := advance_sub le run' run
    rw [advance_of_outside outside rest] at rest
    cases rest
    rfl

end HackPlatform.Machine
