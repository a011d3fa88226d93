import HackPlatform.Instr.Mnemonic

/-!
# Statements of assembly language

A statement defines a label, refers to a name or is an instruction. The type leaves open what a
name is, so that a program can be built over structured names and written out afterwards.
-/

namespace HackPlatform.Asm

/-- A statement over names of type `ν`: `(name)` names the next instruction, `@name` loads the
address that a name stands for, and any other instruction has no name in it. -/
inductive Statement (ν : Type)
  | label (name : ν)
  | reference (name : ν)
  | instr (i : Instr)
  deriving DecidableEq, Repr

namespace Statement

variable {ν μ κ : Type}

/-- The statement with every name replaced. -/
def map (f : ν → μ) : Statement ν → Statement μ
  | label name => label (f name)
  | reference name => reference (f name)
  | instr i => instr i

/-- `@value`. -/
def load (value : UInt16) : Statement ν :=
  instr (.address value)

/-- `dest=comp`. -/
def assign (dest : Dest) (comp : Comp) : Statement ν :=
  instr (.compute dest comp .never)

/-- `comp;jump`. -/
def branch (comp : Comp) (jump : Jump) : Statement ν :=
  instr (.compute .none comp jump)

/-- Whether the statement takes a word of instruction memory. -/
def isWord : Statement ν → Bool
  | label _ => false
  | _ => true

@[simp] theorem map_map (f : ν → μ) (g : μ → κ) (s : Statement ν) :
    (s.map f).map g = s.map (g ∘ f) := by
  cases s <;> rfl

@[simp] theorem isWord_map (f : ν → μ) (s : Statement ν) : (s.map f).isWord = s.isWord := by
  cases s <;> rfl

/-- The written form of a statement. -/
def text : Statement String → String
  | label name => "(" ++ name ++ ")"
  | reference name => "@" ++ name
  | instr i => i.text

end Statement

end HackPlatform.Asm
