import HackPlatform.Proofs.Vm.Comparison
import HackPlatform.Proofs.Vm.Simulation

/-!
# Exact effects of blocks

The simulation keeps the stack and the moving segments away from the registers. Blocks for transfers
and operators need no such distance: from the start of one, whatever A and D hold, the machine comes
behind it with a memory that is known cell by cell, also where a place is the stack pointer, a
scratch register, a register that places are counted from, or a cell of the stack.
-/

namespace HackPlatform.Vm

open Machine (Lands)

/-- The block of a place is written for a command of a unit. -/
def CommandAt (sites : List Site) (k : Nat) (unit : String) (c : Command) : Prop :=
  ∃ s, sites[k]? = some s ∧ s.scope.unit = unit ∧ s.task = .command c

/-- The number of words of a block. -/
def lengthAt (sites : List Site) (k : Nat) : Nat :=
  (startOf sites (k + 1)).toNat - (startOf sites k).toNat

/-- A block leads behind itself in one step for each of its words, and leaves a memory. -/
def Executes (sites : List Site) (p : Asm.Program) (k : Nat) (ram ram' : Ram) : Prop :=
  ∀ a d, Lands ⟨p.words⟩ ⟨startOf sites k, a, d, ram⟩ (lengthAt sites k) (startOf sites (k + 1)) ram'

/-- The cell of a place is in data memory, for a place that has one. -/
def Segment.Inside (segment : Segment) (l : Layout) (unit : String) (ram : Ram) (index : UInt16) :
    Prop :=
  ∀ cell, segment.cell? l unit ram index = some cell → cell < 32768

/-- A word can be popped: its cell is in data memory, and no register that a pop writes before it
reads the word. -/
structure Poppable (ram : Ram) : Prop where
  bound : ram.get .sp - 1 < 32768
  pointer : ram.get .sp - 1 ≠ Register.sp.cell
  scratch : ram.get .sp - 1 ≠ Register.r13.cell

/-- Pushes and pops of a program have one effect on memory, whatever the cells of their places. A
cell of the pointer segment is that of THIS or the next one. A push writes the word of its place
above the stack, and then the stack pointer goes up. A pop keeps the address of a cell that moves in
R13, then the stack pointer goes down, and then the word is stored. A push puts back what a pop took
to its place, and of both only the cell and R13 keep a trace, unless the cell is the stack pointer
or the register that the place is counted from. -/
structure TransfersExact (sites : List Site) (p : Asm.Program) : Prop where
  pointer : ∀ k unit index,
    CommandAt sites k unit (.push .pointer index) ∨ CommandAt sites k unit (.pop .pointer index) →
    ∀ ram, Segment.pointer.cell? (layoutOf sites p) unit ram index = some (3 + index)
  push : ∀ k unit segment index, CommandAt sites k unit (.push segment index) →
    ∀ ram : Ram, ram.Full → ram.get .sp ≠ 0 → ram.get .sp < 32768 →
      segment.Inside (layoutOf sites p) unit ram index →
      Executes sites p k ram (ram.push (segment.load (layoutOf sites p) unit ram index))
  pop : ∀ k unit segment index, CommandAt sites k unit (.pop segment index) →
    ∀ ram : Ram, ram.Full → Poppable ram → ∀ cell,
      segment.cell? (layoutOf sites p) unit ram index = some cell → cell < 32768 →
      Executes sites p k ram (segment.popped ram cell)
  back : ∀ k unit segment index, CommandAt sites k unit (.push segment index) →
    ∀ ram : Ram, ram.Full → Poppable ram → ∀ cell,
      segment.cell? (layoutOf sites p) unit ram index = some cell → cell < 32768 → cell ≠ 0 →
      (∀ r, segment.base? = some r → cell ≠ r.cell) →
      Executes sites p k (segment.popped ram cell) ((segment.kept ram cell).poke cell ram.top)

namespace Image

variable {sites : List Site} {p : Asm.Program} (image : Image sites p)

include image

/-- What the block of a command does in as many steps as it has words. -/
theorem executes {k : Nat} {unit : String} {c : Command} (here : CommandAt sites k unit c)
    {ram ram' : Ram}
    (lands : ∀ (scope : Scope) (a d : UInt16), scope.unit = unit →
      Asm.Stands ⟨p.words⟩ (addressOf p) (startOf sites k) (c.code scope) →
      Lands ⟨p.words⟩ ⟨startOf sites k, a, d, ram⟩ (Asm.wordCount (c.code scope))
        (Asm.behind (startOf sites k) (c.code scope)) ram') :
    Executes sites p k ram ram' := by
  obtain ⟨⟨scope, note, task⟩, site, rfl, rfl⟩ := here
  have length : lengthAt sites k = Asm.wordCount (c.code scope) := by
    rw [lengthAt, image.toNat_startOf, image.toNat_startOf, wordCount_take_succ site,
      Nat.add_sub_cancel_left]
    rfl
  intro a d
  rw [length, startOf_succ site]
  exact lands scope a d rfl (image.stands site)

theorem pointer_cell {k : Nat} {unit : String} {index : UInt16}
    (here : CommandAt sites k unit (.push .pointer index) ∨
      CommandAt sites k unit (.pop .pointer index)) (ram : Ram) :
    Segment.pointer.cell? (layoutOf sites p) unit ram index = some (3 + index) := by
  have small : index ≤ 1 := by
    rcases here with ⟨⟨scope, note, task⟩, site, rfl, rfl⟩ | ⟨⟨scope, note, task⟩, site, rfl, rfl⟩
    · exact (image.sound_at site).allowed
    · exact (image.sound_at site).allowed.2
  have cases : index = 0 ∨ index = 1 := by grind
  rcases cases with rfl | rfl <;> rfl

theorem push_executes {k : Nat} {unit : String} {segment : Segment} {index : UInt16}
    (here : CommandAt sites k unit (.push segment index)) {ram : Ram} (full : ram.Full)
    (base : ram.get .sp ≠ 0) (bound : ram.get .sp < 32768)
    (inside : segment.Inside (layoutOf sites p) unit ram index) :
    Executes sites p k ram (ram.push (segment.load (layoutOf sites p) unit ram index)) := by
  refine image.executes here fun scope a d same stands => ?_
  subst same
  exact Command.push_lands image.registers full rfl stands inside bound base

theorem pop_executes {k : Nat} {unit : String} {segment : Segment} {index : UInt16}
    (here : CommandAt sites k unit (.pop segment index)) {ram : Ram} (full : ram.Full)
    (word : Poppable ram) {cell : UInt16}
    (there : segment.cell? (layoutOf sites p) unit ram index = some cell) (inside : cell < 32768) :
    Executes sites p k ram (segment.popped ram cell) := by
  refine image.executes here fun scope a d same stands => ?_
  subst same
  exact Command.pop_lands image.registers full rfl stands there inside word.bound word.pointer
    word.scratch

theorem push_back_executes {k : Nat} {unit : String} {segment : Segment} {index : UInt16}
    (here : CommandAt sites k unit (.push segment index)) {ram : Ram} (full : ram.Full)
    (word : Poppable ram) {cell : UInt16}
    (there : segment.cell? (layoutOf sites p) unit ram index = some cell) (inside : cell < 32768)
    (pointer : cell ≠ 0) (base : ∀ r, segment.base? = some r → cell ≠ r.cell) :
    Executes sites p k (segment.popped ram cell) ((segment.kept ram cell).poke cell ram.top) := by
  have sp : (segment.popped ram cell).get .sp = ram.get .sp - 1 :=
    Segment.get_sp_popped pointer full
  have stays : segment.Inside (layoutOf sites p) unit (segment.popped ram cell) index := by
    intro other place
    rw [Segment.cell?_popped pointer base, there] at place
    cases place
    exact inside
  rw [← Segment.push_popped pointer full there inside base word.scratch word.pointer]
  exact image.push_executes here (Segment.full_popped.2 full) (sp ▸ word.pointer) (sp ▸ word.bound)
    stays

end Image

/-- In a program that was translated and assembled, transfers have exactly their effect. -/
theorem transfers_exact {units : List (String × String)} {bootstrap : Bool} {config : Config}
    {text : String} {p : Asm.Program} (translated : translateSources units bootstrap config = .ok text)
    (assembled : Asm.assemble text = .ok p) :
    TransfersExact (outline units bootstrap config) p := by
  have image := image_of_translation translated assembled
  constructor
  case pointer =>
    intro k unit index here ram
    exact image.pointer_cell here ram
  case push =>
    intro k unit segment index here ram full base bound inside
    exact image.push_executes here full base bound inside
  case pop =>
    intro k unit segment index here ram full word cell there inside
    exact image.pop_executes here full word there inside
  case back =>
    intro k unit segment index here ram full word cell there inside pointer base
    exact image.push_back_executes here full word there inside pointer base

/-- A program that stores the topmost word in a local variable and fetches it again. -/
def storer : List (String × String) :=
  [("Main", "pop local 1\npush local 1")]

/-- A memory in which that variable lies where the addresses begin anew. -/
def wrapped : Ram :=
  (((Ram.zeros Ram.fullSize).set .sp 257).set .lcl 65535).poke 256 300

theorem wrapped_holds : wrapped.Full ∧ wrapped.get .sp = 257 ∧ wrapped.get .lcl = 65535 ∧
    wrapped.top = 300 := by
  have full : ((Ram.zeros Ram.fullSize).set .sp 257).Full := Ram.full_set.2 (Ram.size_zeros _)
  have sp : wrapped.get .sp = 257 := by
    rw [wrapped, Ram.get_poke (by decide), Ram.get_set_of_ne (by decide)]
    exact Ram.Full.get_set (Ram.size_zeros _)
  refine ⟨Ram.full_poke.2 (Ram.full_set.2 full), sp, ?_, ?_⟩
  · rw [wrapped, Ram.get_poke (by decide)]
    exact full.get_set
  · rw [Ram.top, sp]
    exact (Ram.full_set.2 full).peek_poke (by decide)

/-- The pop stores its word over the stack pointer, which goes down before that. -/
theorem transfers_exact_wrapped :
    ∃ text p, translateSources storer false ⟨.auto, "Sys.init", 256, false⟩ = .ok text ∧
      Asm.assemble text = .ok p ∧
      Executes (outline storer false ⟨.auto, "Sys.init", 256, false⟩) p 0 wrapped
        (Segment.locals.popped wrapped 0) ∧
      (Segment.locals.popped wrapped 0).get .sp = 300 := by
  obtain ⟨text, p, translated, assembled⟩ :=
    @exists_program storer false ⟨.auto, "Sys.init", 256, false⟩ (by decide +kernel)
      (by decide +kernel)
  obtain ⟨full, sp, lcl, top⟩ := wrapped_holds
  have exact := transfers_exact translated assembled
  have here : CommandAt (outline storer false ⟨.auto, "Sys.init", 256, false⟩) 0 "Main"
      (.pop .locals 1) := by
    obtain ⟨s, site, is⟩ := Option.map_eq_some_iff.1
      (by decide +kernel : (outline storer false ⟨.auto, "Sys.init", 256, false⟩)[0]?.map
        (fun s => (s.scope.unit, s.task)) = some ("Main", .command (.pop .locals 1)))
    exact ⟨s, site, congrArg Prod.fst is, congrArg Prod.snd is⟩
  have word : Poppable wrapped := by
    constructor <;> rw [sp] <;> decide
  have place (l : Layout) : Segment.locals.cell? l "Main" wrapped 1 = some 0 := by
    rw [Segment.cell?, lcl]
    rfl
  refine ⟨text, p, translated, assembled,
    exact.pop 0 "Main" .locals 1 here wrapped full word 0 (place _) (by decide), ?_⟩
  rw [← top]
  exact Ram.Full.peek_poke (Ram.full_set.2 (Segment.full_kept.2 full)) (by decide)

/-! ## Operators -/

/-- What an operator computes of the two topmost words. An operator of one word leaves the lower one
alone. -/
def Operator.result (x y : UInt16) : Operator → UInt16
  | add => x + y
  | sub => x - y
  | and => x &&& y
  | or => x ||| y
  | neg => -y
  | not => ~~~y
  | compare r => if r.holds (x - y) then 0xFFFF else 0

/-- The address of an operator's lowest operand. -/
def Operator.lowest (ram : Ram) (op : Operator) : UInt16 :=
  ram.get .sp - op.arity.toUInt16

/-- The operands of an operator are replaced by the result, and nothing else changes. -/
structure Operator.Applied (op : Operator) (ram ram' : Ram) : Prop where
  result : ram'.peek (op.lowest ram) =
    op.result (ram.peek (ram.get .sp - 2)) (ram.peek (ram.get .sp - 1))
  sp : ram'.get .sp = op.lowest ram + 1
  rest : ∀ addr : UInt16, addr ≠ 0 → addr ≠ op.lowest ram → ram'.peek addr = ram.peek addr

/-- From `start` the machine comes to `back` with an operator applied, whatever the operands are and
wherever they lie above the stack pointer. -/
def Computes (rom : Rom) (start back : UInt16) (op : Operator) : Prop :=
  ∀ a d (ram : Ram), ram.Full →
    (∀ cell ∈ (Command.operate op).cells ram, cell ≠ 0 ∧ cell < 32768) →
    ∃ n ram', Lands rom ⟨start, a, d, ram⟩ n back ram' ∧ ram'.Full ∧ op.Applied ram ram'

namespace Operator

variable {ram base : Ram} {op : Operator}

/-- The result is written over the lowest operand when the stack pointer is where it will be. -/
theorem applied_poke {w : UInt16} (full : base.Full) (sp : base.get .sp = op.lowest ram + 1)
    (same : ∀ addr, addr ≠ 0 → base.peek addr = ram.peek addr)
    (place : op.lowest ram ≠ 0 ∧ op.lowest ram < 32768)
    (result : w = op.result (ram.peek (ram.get .sp - 2)) (ram.peek (ram.get .sp - 1))) :
    op.Applied ram (base.poke (op.lowest ram) w) := by
  constructor
  case result => exact (full.peek_poke place.2).trans result
  case sp => exact (Ram.peek_poke_of_ne _ _ place.1.symm).trans sp
  case rest =>
    intro addr pointer other
    rw [Ram.peek_poke_of_ne _ _ other]
    exact same addr pointer

theorem arity_cases (op : Operator) : op.arity = 1 ∨ op.arity = 2 := by
  cases op <;> simp [arity]

theorem effect_of_one (one : op.arity = 1) (x : UInt16) :
    op.effect ram = ram.unary fun y => op.result x y := by
  cases op with
  | neg | not => rfl
  | _ => cases one

theorem effect_of_two (two : op.arity = 2) :
    op.effect ram = ram.binary fun x y => op.result x y := by
  cases op with
  | neg | not => cases two
  | _ => rfl

/-- An operator writes one cell besides the stack pointer. -/
theorem applied_effect (full : ram.Full)
    (cells : ∀ cell ∈ (Command.operate op).cells ram, cell ≠ 0 ∧ cell < 32768) :
    op.Applied ram (op.effect ram) := by
  have place : op.lowest ram ≠ 0 ∧ op.lowest ram < 32768 := by
    apply cells
    cases op <;> simp [Command.cells, arity, lowest]
  rcases op.arity_cases with one | two
  · have lowest : op.lowest ram = ram.get .sp - 1 := by
      rw [Operator.lowest, one]
      rfl
    rw [effect_of_one one (ram.peek (ram.get .sp - 2)), full.unary_eq (lowest ▸ place.1), ← lowest]
    refine applied_poke full ?_ (fun _ _ => rfl) place (by rw [lowest])
    rw [lowest]
    exact (UInt16.sub_add_cancel _ _).symm
  · have lowest : op.lowest ram = ram.get .sp - 2 := by
      rw [Operator.lowest, two]
      rfl
    rw [effect_of_two two, full.binary_eq (lowest ▸ place.1), ← lowest]
    refine applied_poke (Ram.full_drop.2 full) ?_ (fun _ h => Ram.peek_drop ram h) place
      (by rw [lowest])
    rw [full.get_sp_drop, lowest]
    grind

end Operator

theorem Image.operate_computes {sites : List Site} {p : Asm.Program} (image : Image sites p)
    {k : Nat} {op : Operator} (here : TaskAt sites k (.command (.operate op))) :
    Computes ⟨p.words⟩ (startOf sites k) (startOf sites (k + 1)) op := by
  obtain ⟨scope, stands, back⟩ := image.stands_command here
  intro a d ram full cells
  obtain ⟨n, lands⟩ := Operator.lands image.registers full stands cells
    (m := ⟨startOf sites k, a, d, ram⟩)
  rw [back]
  exact ⟨n + 1, _, lands, (op.full_effect).2 full, Operator.applied_effect full cells⟩

/-- In a program that was translated and assembled, the block of an operator computes it. -/
theorem operator_computes {units : List (String × String)} {bootstrap : Bool} {config : Config}
    {text : String} {p : Asm.Program} (translated : translateSources units bootstrap config = .ok text)
    (assembled : Asm.assemble text = .ok p) {k : Nat} {op : Operator}
    (here : TaskAt (outline units bootstrap config) k (.command (.operate op))) :
    Computes ⟨p.words⟩ (startOf (outline units bootstrap config) k)
      (startOf (outline units bootstrap config) (k + 1)) op :=
  (image_of_translation translated assembled).operate_computes here

/-- A stack that lies over the registers, with 32767 below -1. -/
def lowStack : Ram :=
  (((Ram.zeros Ram.fullSize).set .sp 3).set .lcl 32767).set .arg 0xFFFF

theorem lowStack_holds : lowStack.Full ∧ lowStack.get .sp = 3 ∧ lowStack.peek 1 = 32767 ∧
    lowStack.peek 2 = 0xFFFF := by
  have full : ((Ram.zeros Ram.fullSize).set .sp 3).Full := Ram.full_set.2 (Ram.size_zeros _)
  refine ⟨Ram.full_set.2 (Ram.full_set.2 full), ?_, ?_, (Ram.full_set.2 full).get_set⟩
  · rw [lowStack, Ram.get_set_of_ne (by decide), Ram.get_set_of_ne (by decide)]
    exact Ram.Full.get_set (Ram.size_zeros _)
  · exact (Ram.get_set_of_ne (r := .arg) (s := .lcl) (by decide)).trans full.get_set

/-- The difference wraps to -32768, so a program that asks for greater says no, in the cell of
LCL. -/
theorem operator_computes_low :
    ∃ text p, translateSources farApart false plain = .ok text ∧ Asm.assemble text = .ok p ∧
      ∃ n ram, Lands ⟨p.words⟩ ⟨startOf (outline farApart false plain) 3, 0, 0, lowStack⟩ n
          (startOf (outline farApart false plain) 4) ram ∧
        ram.get .lcl = 0 ∧ ram.get .sp = 2 ∧ ram.get .arg = 0xFFFF := by
  obtain ⟨text, p, translated, assembled⟩ := exists_farApart
  obtain ⟨full, sp, below, top⟩ := lowStack_holds
  have computes := operator_computes translated assembled farApart_compare
  have cells : ∀ cell ∈ (Command.operate (.compare .gt)).cells lowStack,
      cell ≠ 0 ∧ cell < 32768 := by
    simp [Command.cells, Operator.arity, sp]
  obtain ⟨n, ram, lands, -, applied⟩ := computes 0 0 lowStack full cells
  have lowest : Operator.lowest lowStack (.compare .gt) = 1 := by
    rw [Operator.lowest, sp]
    rfl
  have result := applied.result
  have pointer := applied.sp
  have kept := applied.rest 2 (by decide)
  rw [lowest] at result pointer kept
  rw [sp] at result
  rw [show (3 : UInt16) - 2 = 1 from rfl, show (3 : UInt16) - 1 = 2 from rfl, below, top] at result
  exact ⟨text, p, translated, assembled, n, ram, lands, result, pointer,
    (kept (by decide)).trans top⟩

end HackPlatform.Vm
