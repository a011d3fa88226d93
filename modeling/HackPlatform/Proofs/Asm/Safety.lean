import HackPlatform.Proofs.Asm.Disassembly
import HackPlatform.Proofs.Machine.Full
import HackPlatform.Proofs.Machine.Iteration
import HackPlatform.Proofs.Machine.Trap

/-!
# Runs of assembled programs

All words of an assembled program are instructions, wherever a computed jump may lead, and a run
looks for the end of the program before it fetches. So the only traps are refused accesses to data
memory.
-/

namespace HackPlatform

open Machine (run)

namespace Rom

/-- Every word is an instruction. -/
def AllDecode (rom : Rom) : Prop :=
  ∀ w ∈ rom.words.toList, (Instr.decode? w).isSome = true

variable {rom : Rom}

theorem AllDecode.isSome_decode? (all : rom.AllDecode) {pc word : UInt16}
    (there : rom.fetch? pc = some word) : (Instr.decode? word).isSome = true := by
  apply all
  rw [Array.mem_toList_iff]
  exact Array.mem_of_getElem? there

end Rom

namespace Machine

/-- The step is refused for the instruction's cell: it reads or writes the cell at A, and memory has
none there. -/
structure TrapsAtCell (rom : Rom) (s : Machine) (trap : Trap) : Prop where
  accesses : ∃ dest comp jump, rom.instr? s.pc = some (.compute dest comp jump) ∧
    (comp.readsMemory = true ∨ dest.m = true)
  missing : s.ram.size ≤ s.a.toNat
  trap : ∃ access, trap = .bus s.a ⟨access, s.ram.size⟩

variable {rom : Rom} {m : Machine} {limit : Nat} {trap : Trap}

/-- Where all words are instructions, a run traps at a cell that is not there or not at all. -/
theorem run_error_of_allDecode (all : rom.AllDecode) (h : (run rom m limit).ending = .error trap) :
    ∃ s, m.advance rom (run rom m limit).steps = .ok s ∧ s.TrapsAtCell rom trap := by
  obtain ⟨s, walk, ends⟩ := exists_walks rom m limit
  rw [h] at ends
  obtain ⟨-, awake, stuck⟩ := ends_error_iff.1 ends
  refine ⟨s, walk.arrives, ?_⟩
  generalize (run rom m limit).machine = left at stuck
  cases step_eq_error_iff.1 stuck with
  | outside none =>
    have inside := (Rom.rest?_eq_none_iff.1 awake).1
    have outside : rom.size ≤ s.pc.toNat := Array.getElem?_eq_none_iff.1 none
    omega
  | invalid there none =>
    have decodes := all.isSome_decode? there
    rw [none] at decodes
    cases decodes
  | bus here needs missing =>
    constructor
    case accesses => exact ⟨_, _, _, here, isSome_firstAccess?.1 (Option.isSome_of_eq_some needs)⟩
    case missing => exact missing
    case trap => exact ⟨_, rfl⟩

end Machine

namespace Asm

/-- An assembled program never meets a word that is no instruction and never fetches from outside
its words. It traps only where an instruction needs the cell at A and memory has none there; so with
all addressable words of memory, only where A is above the largest address. -/
theorem run_traps_at_cells {source : String} {p : Program} (accepted : assemble source = .ok p)
    (m : Machine) (limit : Nat) :
    (∀ pc word, (run ⟨p.words⟩ m limit).ending ≠ .error (.invalidInstruction pc word)) ∧
    (∀ pc, (run ⟨p.words⟩ m limit).ending ≠ .error (.outsideRom pc)) ∧
    ∀ trap, (run ⟨p.words⟩ m limit).ending = .error trap →
      ∃ s, m.advance ⟨p.words⟩ (run ⟨p.words⟩ m limit).steps = .ok s ∧
        s.TrapsAtCell ⟨p.words⟩ trap ∧ (Ram.fullSize ≤ m.ram.size → 32768 ≤ s.a) := by
  obtain ⟨located, read, passes⟩ := assemble_eq_ok accepted
  have all : Rom.AllDecode ⟨p.words⟩ :=
    (assembled_of_assembleStatements passes).decodes (proper_of_readSource read)
  have cells {trap : Trap} (h : (run ⟨p.words⟩ m limit).ending = .error trap) :=
    Machine.run_error_of_allDecode all h
  refine ⟨fun pc word invalid => ?_, fun pc outside => ?_, fun trap h => ?_⟩
  · obtain ⟨s, -, traps⟩ := cells invalid
    obtain ⟨access, bus⟩ := traps.trap
    cases bus
  · obtain ⟨s, -, traps⟩ := cells outside
    obtain ⟨access, bus⟩ := traps.trap
    cases bus
  · obtain ⟨s, arrives, traps⟩ := cells h
    refine ⟨s, arrives, traps, fun whole => ?_⟩
    have missing := traps.missing
    rw [Machine.size_advance arrives] at missing
    exact UInt16.le_iff_toNat_le.2 (Nat.le_trans whole missing)

/-- A source that writes to the cell at the largest word. -/
def overreach : String :=
  "A=-1\nM=1"

/-- Its words. -/
def overreachRom : Rom := ⟨#[0xEEA0, 0xEFC8]⟩

theorem run_overreach {ram : Ram} (full : ram.Full) :
    (run overreachRom (.start ram) 2).ending = .error (.bus 65535 ⟨.write, Ram.fullSize⟩) := by
  have load : overreachRom.instr? 0 = some (.compute .onlyA .minusOne .never) := by decide
  have store : overreachRom.instr? 1 = some (.compute .onlyM .one .never) := by decide
  have awake : overreachRom.rest? 0 = none ∧ overreachRom.rest? 1 = none := by decide
  have first : Machine.step overreachRom (.start ram) = .ok ⟨1, 65535, 0, ram⟩ := by
    rw [Machine.step_of_instr? load, Machine.exec_assign_of_registers (by decide),
      Comp.value_minusOne]
    rfl
  have second : Machine.step overreachRom ⟨1, 65535, 0, ram⟩ =
      .error ⟨.bus 65535 ⟨.write, ram.size⟩, ⟨2, 65535, 0, ram⟩⟩ := by
    rw [Machine.step_of_instr? store]
    apply Machine.exec_compute_of_access
    · show ram.size ≤ 65535
      rw [full]
      decide
    · decide
  rw [Machine.run_of_step awake.1 first, Machine.run_of_crash awake.2 second, full]
  rfl

/-- With all its memory the machine traps there, and at no other step of any run. -/
theorem run_traps_at_cells_overreach :
    ∃ p, assemble overreach = .ok p ∧
      (run ⟨p.words⟩ (.start (.zeros Ram.fullSize)) 2).ending =
        .error (.bus 65535 ⟨.write, Ram.fullSize⟩) ∧
      ∃ s, (Machine.start (.zeros Ram.fullSize)).advance ⟨p.words⟩
          (run ⟨p.words⟩ (.start (.zeros Ram.fullSize)) 2).steps = .ok s ∧
        s.TrapsAtCell ⟨p.words⟩ (.bus 65535 ⟨.write, Ram.fullSize⟩) ∧ 32768 ≤ s.a := by
  have words : (assemble overreach).toOption.map (·.words) = some overreachRom.words := by
    decide +kernel
  cases accepted : assemble overreach with
  | error e =>
    rw [accepted] at words
    cases words
  | ok p =>
    rw [accepted] at words
    have same : Rom.mk p.words = overreachRom := congrArg Rom.mk (Option.some.inj words)
    have full : (Ram.zeros Ram.fullSize).Full := Ram.size_zeros _
    have ending := run_overreach full
    rw [← same] at ending
    obtain ⟨-, -, cells⟩ := run_traps_at_cells accepted (.start (.zeros Ram.fullSize)) 2
    obtain ⟨s, arrives, traps, high⟩ := cells _ ending
    exact ⟨p, rfl, ending, s, arrives, traps, high (Nat.le_of_eq full.symm)⟩

end Asm

end HackPlatform
