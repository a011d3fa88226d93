import HackPlatform.Machine.Basic

/-!
# Runs

A run steps until the program counter leaves the program, the program parks in a loop of its own
jumping to itself, a step traps or the step limit is reached. The limit is looked at first, then
the end of the program, then the loop.
-/

namespace HackPlatform

/-- Why a run stopped without a trap: the program counter is behind the last instruction, it is at a
load of its own address that an unconditional jump follows, or all steps that were allowed are done.
-/
inductive Halt
  | endOfProgram
  | selfLoop (pc : UInt16)
  | stepLimit
  deriving DecidableEq, Repr

namespace Rom

/-- The instruction at an address, if a word is there and denotes one. -/
def instr? (rom : Rom) (pc : UInt16) : Option Instr :=
  (rom.fetch? pc).bind Instr.decode?

/-- Whether the program, once at `pc`, stays there for ever: `pc` is loaded, and the next
instruction stores nothing and always jumps. -/
def isSelfLoop (rom : Rom) (pc : UInt16) : Bool :=
  rom.instr? pc = some (.address pc) &&
    match rom.instr? (pc + 1) with
    | some (.compute dest _ .always) => dest.isNone
    | _ => false

end Rom

/-- What a run did: the state it ended in, the number of completed steps, and how it ended. -/
structure RunResult where
  machine : Machine
  steps : Nat
  ending : Except Trap Halt

namespace Machine

/-- Runs on after `done` steps, for at most `limit` more. -/
def runOn (rom : Rom) (done : Nat) (m : Machine) : (limit : Nat) → RunResult
  | 0 => ⟨m, done, .ok .stepLimit⟩
  | limit + 1 =>
    if rom.size ≤ m.pc.toNat then ⟨m, done, .ok .endOfProgram⟩
    else if rom.isSelfLoop m.pc then ⟨m, done, .ok (.selfLoop m.pc)⟩
    else
      match step rom m with
      | .error crash => ⟨crash.machine, done, .error crash.trap⟩
      | .ok next => runOn rom (done + 1) next limit

/-- Runs for at most `limit` steps. -/
def run (rom : Rom) (m : Machine) (limit : Nat) : RunResult :=
  runOn rom 0 m limit

/-- The step limit of a run that names none. -/
def defaultLimit : Nat := 10000000

end Machine

end HackPlatform
