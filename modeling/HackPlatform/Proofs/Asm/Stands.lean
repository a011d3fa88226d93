import HackPlatform.Asm.Statement
import HackPlatform.Proofs.Machine.Advance
import HackPlatform.Proofs.Machine.Value

/-!
# Code in instruction memory

`Stands` says that a list of statements lies in instruction memory from an address on, each name
standing for a given address. Code that cannot jump is run by folding the effects of its
statements over the state, whatever the code around it: `advance_straight`.
-/

namespace HackPlatform.Asm

variable {ν μ : Type}

/-- The number of words that statements take. -/
def wordCount (code : List (Statement ν)) : Nat :=
  code.countP Statement.isWord

@[simp] theorem wordCount_nil : wordCount ([] : List (Statement ν)) = 0 := rfl

@[simp] theorem wordCount_label (name : ν) (code : List (Statement ν)) :
    wordCount (.label name :: code) = wordCount code := rfl

@[simp] theorem wordCount_reference (name : ν) (code : List (Statement ν)) :
    wordCount (.reference name :: code) = wordCount code + 1 :=
  List.countP_cons_of_pos rfl

@[simp] theorem wordCount_instr (i : Instr) (code : List (Statement ν)) :
    wordCount (.instr i :: code) = wordCount code + 1 :=
  List.countP_cons_of_pos rfl

@[simp] theorem wordCount_append (code more : List (Statement ν)) :
    wordCount (code ++ more) = wordCount code + wordCount more :=
  List.countP_append

@[simp] theorem wordCount_map (f : ν → μ) (code : List (Statement ν)) :
    wordCount (code.map (Statement.map f)) = wordCount code := by
  simp only [wordCount, List.countP_map]
  congr 1
  funext s
  exact Statement.isWord_map f s

/-- Adding word counts is adding words. -/
theorem toUInt16_add (a b : Nat) : (a + b).toUInt16 = a.toUInt16 + b.toUInt16 :=
  UInt16.ofNat_add a b

theorem toNat_toUInt16 {n : Nat} (h : n < 65536) : n.toUInt16.toNat = n :=
  UInt16.toNat_ofNat_of_lt h

/-- The statements lie in instruction memory from an address on. A label among them has the address
it stands at. -/
def Stands (rom : Rom) (address : ν → UInt16) : UInt16 → List (Statement ν) → Prop
  | _, [] => True
  | p, .label name :: rest => address name = p ∧ Stands rom address p rest
  | p, .reference name :: rest =>
    rom.instr? p = some (.address (address name)) ∧ Stands rom address (p + 1) rest
  | p, .instr i :: rest => rom.instr? p = some i ∧ Stands rom address (p + 1) rest

/-- The address behind code that starts at `p`. -/
def behind (p : UInt16) (code : List (Statement ν)) : UInt16 :=
  p + (wordCount code).toUInt16

@[simp] theorem behind_nil (p : UInt16) : behind p ([] : List (Statement ν)) = p :=
  UInt16.add_zero p

@[simp] theorem behind_label (p : UInt16) (name : ν) (code : List (Statement ν)) :
    behind p (.label name :: code) = behind p code := rfl

@[simp] theorem behind_reference (p : UInt16) (name : ν) (code : List (Statement ν)) :
    behind p (.reference name :: code) = behind (p + 1) code := by
  rw [behind, behind, wordCount_reference, Nat.add_comm, toUInt16_add, ← UInt16.add_assoc]
  rfl

@[simp] theorem behind_instr (p : UInt16) (i : Instr) (code : List (Statement ν)) :
    behind p (.instr i :: code) = behind (p + 1) code := by
  rw [behind, behind, wordCount_instr, Nat.add_comm, toUInt16_add, ← UInt16.add_assoc]
  rfl

@[simp] theorem behind_append (p : UInt16) (code more : List (Statement ν)) :
    behind p (code ++ more) = behind (behind p code) more := by
  rw [behind, wordCount_append, toUInt16_add, ← UInt16.add_assoc]
  rfl

theorem stands_append {rom : Rom} {address : ν → UInt16} {p : UInt16}
    {code more : List (Statement ν)} :
    Stands rom address p (code ++ more) ↔
      Stands rom address p code ∧ Stands rom address (behind p code) more := by
  induction code generalizing p with
  | nil => simp [Stands]
  | cons s code ih => cases s <;> simp [Stands, ih, and_assoc]

/-- Replacing names is replacing what they stand for. -/
theorem stands_map {rom : Rom} {address : μ → UInt16} {f : ν → μ} {p : UInt16}
    {code : List (Statement ν)} :
    Stands rom address p (code.map (Statement.map f)) ↔ Stands rom (address ∘ f) p code := by
  induction code generalizing p with
  | nil => rfl
  | cons s code ih => cases s <;> simp [Stands, Statement.map, ih]

namespace Statement

/-- Whether the statement never jumps. -/
def falls : Statement ν → Bool
  | instr i => i.falls
  | _ => true

/-- The effect of a statement on the registers and memory. A label has none. -/
def exec (address : ν → UInt16) (m : Machine) : Statement ν → Except Crash Machine
  | label _ => .ok m
  | reference name => .ok { m with a := address name }
  | instr i => m.exec i

end Statement

/-- The effect of statements that do not jump, one after the other. -/
def execAll (address : ν → UInt16) (m : Machine) (code : List (Statement ν)) :
    Except Crash Machine :=
  code.foldlM (Statement.exec address) m

theorem execAll_append (address : ν → UInt16) (m : Machine) (code more : List (Statement ν)) :
    execAll address m (code ++ more) =
      (execAll address m code).bind fun m => execAll address m more :=
  List.foldlM_append

/-- The effect of a front that is known. -/
theorem execAll_after {address : ν → UInt16} {m next : Machine} {code : List (Statement ν)}
    (h : execAll address m code = .ok next) (more : List (Statement ν)) :
    execAll address m (code ++ more) = execAll address next more := by
  rw [execAll_append, h]
  rfl

theorem execAll_cons {address : ν → UInt16} {m m' : Machine} {s : Statement ν}
    {code : List (Statement ν)} :
    execAll address m (s :: code) = .ok m' ↔
      ∃ next, s.exec address m = .ok next ∧ execAll address next code = .ok m' := by
  cases h : s.exec address m with
  | error crash => simp [execAll, h, bind, Except.bind]
  | ok next => simp [execAll, h, bind, Except.bind]

/-- A statement that does not jump does the same wherever the program counter is. -/
theorem Statement.exec_moved {address : ν → UInt16} {m m' : Machine} {s : Statement ν}
    (falls : s.falls = true) (h : s.exec address m = .ok m') (p : UInt16) :
    s.exec address { m with pc := p } = .ok { m' with pc := p } := by
  cases s with
  | label name =>
    cases h
    rfl
  | reference name =>
    cases h
    rfl
  | instr i => exact Machine.exec_moved falls h p

theorem execAll_moved {address : ν → UInt16} {m m' : Machine} {code : List (Statement ν)}
    (falls : code.all Statement.falls = true) (h : execAll address m code = .ok m') (p : UInt16) :
    execAll address { m with pc := p } code = .ok { m' with pc := p } := by
  induction code generalizing m with
  | nil =>
    cases h
    rfl
  | cons s code ih =>
    obtain ⟨next, first, rest⟩ := execAll_cons.1 h
    rw [List.all_cons, Bool.and_eq_true] at falls
    have head := Statement.exec_moved falls.1 first p
    exact execAll_cons.2 ⟨_, head, ih falls.2 rest⟩

/-- Code without jumps runs through, and its effect does not depend on where it stands. -/
theorem advance_straight {rom : Rom} {address : ν → UInt16} {code : List (Statement ν)}
    {m m' : Machine} {p : UInt16} (stands : Stands rom address p code)
    (falls : code.all Statement.falls = true) (effect : execAll address m code = .ok m')
    (pc : m.pc = p) :
    m.advance rom (wordCount code) = .ok { m' with pc := behind p code } := by
  induction code generalizing m m' p with
  | nil =>
    cases effect
    subst pc
    simp
  | cons s code ih =>
    subst pc
    obtain ⟨next, first, rest⟩ := execAll_cons.1 effect
    rw [List.all_cons, Bool.and_eq_true] at falls
    -- The rest runs from the next word, where its effect is the one known from here.
    have moved := Statement.exec_moved falls.1 first (m.pc + 1)
    have after := execAll_moved falls.2 rest (m.pc + 1)
    cases s with
    | label name =>
      cases first
      exact ih stands.2 falls.2 rest rfl
    | reference name =>
      have step := Machine.step_of_instr? stands.1
      have run := ih (m := { next with pc := m.pc + 1 }) stands.2 falls.2 after rfl
      rw [wordCount_reference, Machine.advance_step (step.trans moved), run, behind_reference]
    | instr i =>
      have step := Machine.step_of_instr? stands.1
      have run := ih (m := { next with pc := m.pc + 1 }) stands.2 falls.2 after rfl
      rw [wordCount_instr, Machine.advance_step (step.trans moved), run, behind_instr]

/-- Code without jumps is left at its end only. It may be a part, from its word `i` on, of the
addresses that are stayed at. -/
theorem stays_straight {rom : Rom} {address : ν → UInt16} {code : List (Statement ν)}
    {m m' : Machine} {start : UInt16} {length i : Nat}
    (stands : Stands rom address m.pc code) (falls : code.all Statement.falls = true)
    (effect : execAll address m code = .ok m') (place : m.pc = start + i.toUInt16)
    (fits : i + wordCount code ≤ length) : Machine.Stays rom m (wordCount code) start length := by
  induction code generalizing m m' i with
  | nil => exact Machine.stays_zero
  | cons s code ih =>
    obtain ⟨next, first, rest⟩ := execAll_cons.1 effect
    rw [List.all_cons, Bool.and_eq_true] at falls
    have moved := Statement.exec_moved falls.1 first (m.pc + 1)
    have after := execAll_moved falls.2 rest (m.pc + 1)
    have behind : m.pc + 1 = start + (i + 1).toUInt16 := by
      rw [place, toUInt16_add, UInt16.add_assoc]
      rfl
    cases s with
    | label name =>
      cases first
      exact ih stands.2 falls.2 rest place fits
    | reference name =>
      rw [wordCount_reference] at fits ⊢
      have step := Machine.advance_one ((Machine.step_of_instr? stands.1).trans moved)
      have more := ih (m := { next with pc := m.pc + 1 }) stands.2 falls.2 after behind (by omega)
      rw [Nat.add_comm]
      exact (Machine.stays_one place (by omega)).after step more
    | instr s =>
      rw [wordCount_instr] at fits ⊢
      have step := Machine.advance_one ((Machine.step_of_instr? stands.1).trans moved)
      have more := ih (m := { next with pc := m.pc + 1 }) stands.2 falls.2 after behind (by omega)
      rw [Nat.add_comm]
      exact (Machine.stays_one place (by omega)).after step more

end HackPlatform.Asm
