import HackPlatform.Proofs.Asm.Disassembly
import HackPlatform.Proofs.Asm.Judged
import HackPlatform.Proofs.Machine.Trap

/-!
# What a line computes

A line with a computation assembles to one word. Executed, the word does what the line reads as: the
expression is evaluated on signed words over the old D, A and cell at A, its value goes to the places
in front of it, all at once, and the jump behind it compares it with zero.
-/

namespace HackPlatform

/-- How the value of a computation compares with zero where a jump is taken. -/
def Jump.Holds (v : Int16) : Jump → Prop
  | .never => False
  | .gt => 0 < v
  | .eq => v = 0
  | .ge => 0 ≤ v
  | .lt => v < 0
  | .ne => v ≠ 0
  | .le => v ≤ 0
  | .always => True

theorem Jump.taken_iff (w : UInt16) (jump : Jump) : jump.taken w = true ↔ jump.Holds w.toInt16 := by
  have zero : w = 0 ↔ w.toInt16 = 0 := by
    constructor
    · rintro rfl
      rfl
    · intro zero
      exact congrArg Int16.toUInt16 zero
  cases jump <;> simp [taken, Holds, zero]

instance (v : Int16) (jump : Jump) : Decidable (jump.Holds v) :=
  decidable_of_iff (jump.taken v.toUInt16 = true) (by rw [Jump.taken_iff, Int16.toInt16_toUInt16])

namespace Machine

variable {m m' : Machine} {rom : Rom} {e : Expression} {dest : Dest} {jump : Jump}

/-- The value of an expression in a state of the machine. -/
def valueOf (m : Machine) (e : Expression) : Int16 :=
  e.eval m.d.toInt16 m.a.toInt16 (m.ram.peek m.a).toInt16

/-- The state after a computation, in terms of the state before. -/
structure Computed (dest : Dest) (e : Expression) (jump : Jump) (m m' : Machine) : Prop where
  pc : m'.pc = if jump.Holds (m.valueOf e) then m.a else m.pc + 1
  a : m'.a = if dest.a then (m.valueOf e).toUInt16 else m.a
  d : m'.d = if dest.d then (m.valueOf e).toUInt16 else m.d
  size : m'.ram.size = m.ram.size
  cell : ∀ x, m'.ram.peek x =
    if dest.m = true ∧ x = m.a then (m.valueOf e).toUInt16 else m.ram.peek x

/-- The cell at A is there when the computation reads or writes it. -/
def HasCell (dest : Dest) (e : Expression) (m : Machine) : Prop :=
  e.readsCell = true ∨ dest.m = true → m.a.toNat < m.ram.size

/-- A computation gives the value of its expression to its destination, and jumps by it. -/
theorem step_computed {w : UInt16} (fetched : rom.fetch? m.pc = some w)
    (decoded : Instr.decode? w = some (.compute dest e.comp jump)) (cell : HasCell dest e m) :
    ∃ m', step rom m = .ok m' ∧ Computed dest e jump m m' := by
  have here : rom.instr? m.pc = some (.compute dest e.comp jump) := by
    rw [Rom.instr?, fetched]
    exact decoded
  have access : m.a.toNat < m.ram.size ∨ firstAccess? dest e.comp = none := by
    by_cases needed : e.readsCell = true ∨ dest.m = true
    · exact .inl (cell needed)
    · rw [← e.readsMemory_comp] at needed
      exact .inr (firstAccess?_eq_none_iff.2 needed)
  have value : (e.comp.value m.d m.a (m.ram.peek m.a)).toInt16 = m.valueOf e := e.value_comp _ _ _
  have word : e.comp.value m.d m.a (m.ram.peek m.a) = (m.valueOf e).toUInt16 := by
    rw [← value, UInt16.toUInt16_toInt16]
  rw [step_of_instr? here, exec_compute (m := { m with pc := m.pc + 1 }) access]
  simp only [Jump.taken_iff, value]
  refine ⟨_, rfl, rfl, ?_, ?_, ?_, ?_⟩
  · rw [word]
  · rw [word]
  · show (if dest.m = true then m.ram.poke m.a _ else m.ram).size = m.ram.size
    split
    · exact Ram.size_poke ..
    · rfl
  · intro x
    rw [word]
    by_cases stores : dest.m = true
    · by_cases same : x = m.a
      · subst same
        simp only [stores, and_self, if_true]
        exact Ram.peek_poke_self _ (cell (.inr stores))
      · simp only [stores, same, and_false, if_true, if_false]
        exact Ram.peek_poke_of_ne _ _ same
    · simp [stores]

end Machine

/-! ## Lines -/

namespace Asm

variable {line r front text back : List Char} {dest : Dest} {e : Expression} {jump : Jump}

/-- A line that stands for an instruction assembles to its word. -/
theorem assemble_single {i : Instr} (single : '\n' ∉ line) (remains : Remains line r)
    (phrase : Phrase r (.instr i)) :
    ∃ p, assemble (String.ofList line) = .ok p ∧ p.words = #[i.encode] := by
  have denotes := phrase_iff_denotes.1 phrase
  have filled : r ≠ [] := by
    rintro rfl
    cases Statement.read_of_denotes denotes
  have some : line ≠ [] := by
    rintro rfl
    exact filled (remains_iff.1 remains)
  have alone : Text.numberedLines (String.ofList line).toList = [] ++ [(1, line)] := by
    rw [String.toList_ofList]
    exact Text.numberedLines_single single some
  have here : codeLines (String.ofList line).toList = [(1, r)] :=
    codeLines_here alone remains filled
  have read : readSource (String.ofList line) = .ok [⟨1, .instr i⟩] := by
    rw [readSource_eq_ok_iff, here]
    exact .cons ⟨rfl, denotes⟩ .nil
  have code : statementsOf [⟨1, .instr i⟩] = [i].map .instr := rfl
  obtain ⟨p, ok, words, -, -⟩ := assembleStatements_instrs code (by simp)
  refine ⟨p, ?_, Array.toList_inj.1 words⟩
  rw [assemble, read]
  exact ok

/-- A line with a computation assembles to one word, and this, wherever it is fetched, computes what
the line reads as. -/
theorem assemble_computes (single : '\n' ∉ line) (remains : Remains line (front ++ text ++ back))
    (before : Destination front dest) (spelled : String.ofList text ∈ e.spellings)
    (behind : JumpPart back jump) :
    ∃ p w, assemble (String.ofList line) = .ok p ∧ p.words = #[w] ∧
      Instr.decode? w = some (.compute dest e.comp jump) ∧
      ∀ (rom : Rom) (m : Machine), rom.fetch? m.pc = some w → m.HasCell dest e →
        ∃ m', m.step rom = .ok m' ∧ m.Computed dest e jump m' := by
  have phrase := Phrase.compute before spelled behind
  obtain ⟨p, ok, words⟩ := assemble_single single remains phrase
  have proper : (Instr.compute dest e.comp jump).Encodable := (phrase_iff_denotes.1 phrase).proper
  have decoded := Instr.decode?_encode proper
  refine ⟨p, _, ok, words, decoded, fun rom m fetched cell => ?_⟩
  exact Machine.step_computed fetched decoded cell

/-- The largest signed word has the least as its successor, which is negative: all three places take
it, and the jump goes to where A was. -/
theorem assemble_computes_wrapping :
    ∃ p w m', assemble (String.ofList " MDA = 1+M ; JLT // wraps".toList) = .ok p ∧ p.words = #[w] ∧
      Machine.step ⟨#[0, w]⟩ ⟨1, 2, 7, ⟨#[0, 0, 0x7FFF]⟩⟩ = .ok m' ∧
      m'.pc = 2 ∧ m'.a = 0x8000 ∧ m'.d = 0x8000 ∧ m'.ram.peek 2 = 0x8000 := by
  have remains : Remains " MDA = 1+M ; JLT // wraps".toList
      ((['M', 'D', 'A'] ++ ['=']) ++ ['1', '+', 'M'] ++ (';' :: Jump.lt.text.toList)) := by
    rw [remains_iff]
    decide +kernel
  obtain ⟨p, w, ok, words, -, steps⟩ := assemble_computes (e := .succ (.second .m))
    (by decide +kernel) remains (.letters (by simp [Dest.letters]) (by decide)) (by decide)
    (.named (by decide))
  obtain ⟨m', stepped, after⟩ :=
    steps ⟨#[0, w]⟩ ⟨1, 2, 7, ⟨#[0, 0, 0x7FFF]⟩⟩ rfl (fun _ => by decide)
  refine ⟨p, w, m', ok, words, stepped, ?_, ?_, ?_, ?_⟩
  · rw [after.pc]
    decide
  · rw [after.a]
    decide
  · rw [after.d]
    decide
  · rw [after.cell]
    decide

end Asm

end HackPlatform
