import HackPlatform.Proofs.Vm.Pieces

/-!
# Execution of blocks

What the machine does with each block that stands in instruction memory, from any state at its
start: the number of steps, the place it comes to and the memory it leaves. The bounds that are
asked for are those of the bus, and those that keep a block from overwriting what it still needs.
-/

namespace HackPlatform.Vm.Code

open Asm Machine

variable {rom : Rom} {address : Symbol → UInt16} {m : Machine} {p : UInt16}

variable (regs : RegistersAt address) (full : m.ram.Full)

/-- Code without jumps, by the effect of its statements. -/
theorem lands_straight {code : List (Statement Symbol)} {a d : UInt16} {ram : Ram}
    (stands : Stands rom address m.pc code) (falls : code.all Statement.falls = true)
    (effect : execAll address m code = .ok { m with a := a, d := d, ram := ram }) :
    Lands rom m (wordCount code) (behind m.pc code) ram :=
  lands_of_advance (advance_straight stands falls effect rfl)

include regs full

theorem setStack_lands {base : UInt16} (stands : Stands rom address m.pc (setStack base)) :
    Lands rom m 4 (behind m.pc (setStack base)) (m.ram.set .sp base) := by
  refine lands_straight (a := Register.sp.cell) (d := base) stands rfl ?_
  simp only [setStack, addr, full, Register.cell_bound, execAll_reference, execAll_load,
    execAll_onlyD_of_registers, Comp.readsMemory_a, execAll_onlyM, regs _, Comp.value_a,
    Comp.value_d, execAll_nil, Ram.set]

/-- Operators of two operands: `x` below, `y` on top. -/
theorem binary_lands {comp : Comp} (stands : Stands rom address m.pc (binary comp))
    (top : m.ram.get .sp - 1 < 32768) (below : m.ram.get .sp - 2 < 32768) :
    Lands rom m 5 (behind m.pc (binary comp))
      (m.ram.drop.poke (m.ram.get .sp - 2)
        (comp.value (m.ram.drop.peek (m.ram.get .sp - 1)) (m.ram.get .sp - 2)
          (m.ram.drop.peek (m.ram.get .sp - 2)))) := by
  refine lands_straight (a := m.ram.get .sp - 2) (d := m.ram.drop.peek (m.ram.get .sp - 1))
    stands rfl ?_
  have step : m.ram.get .sp - 1 - 1 = m.ram.get .sp - 2 := by grind
  rw [binary, execAll_append, execAll_popD regs full top]
  simp only [Except.bind, execAll_onlyA_of_registers, Comp.readsMemory_aMinusOne, execAll_onlyM,
    Comp.value_aMinusOne, full, Ram.full_drop, step, below, execAll_nil]

theorem execAll_unary {comp : Comp} (top : m.ram.get .sp - 1 < 32768) :
    execAll address m (unary comp) = .ok { m with
      a := m.ram.get .sp - 1
      ram := m.ram.poke (m.ram.get .sp - 1)
        (comp.value m.d (m.ram.get .sp - 1) (m.ram.peek (m.ram.get .sp - 1))) } := by
  simp only [Ram.get] at top
  simp only [unary, addr, full, Register.cell_bound, top, execAll_reference, execAll_onlyA,
    execAll_onlyM, regs _, Comp.value_mMinusOne, execAll_nil, Ram.get]

theorem unary_lands {comp : Comp} (stands : Stands rom address m.pc (unary comp))
    (top : m.ram.get .sp - 1 < 32768) :
    Lands rom m 3 (behind m.pc (unary comp))
      (m.ram.poke (m.ram.get .sp - 1)
        (comp.value m.d (m.ram.get .sp - 1) (m.ram.peek (m.ram.get .sp - 1)))) :=
  lands_straight stands rfl (execAll_unary regs full top)

theorem pushValue_lands {w : UInt16} (stands : Stands rom address m.pc (push (.value w)))
    (bound : m.ram.get .sp < 32768) (base : m.ram.get .sp ≠ 0) :
    Lands rom m 7 (behind m.pc (push (.value w))) (m.ram.push w) := by
  refine lands_straight (a := 0) (d := w) stands rfl ?_
  rw [push, execAll_append]
  simp only [execAll_load, execAll_onlyD_of_registers, Comp.readsMemory_a, Comp.value_a,
    execAll_nil, Except.bind]
  exact execAll_pushD regs full bound base

theorem pushIndexed_lands {r : Register} {offset : UInt16}
    (stands : Stands rom address m.pc (push (.indexed r offset)))
    (cell : m.ram.get r + offset < 32768)
    (bound : m.ram.get .sp < 32768) (base : m.ram.get .sp ≠ 0) :
    Lands rom m 10 (behind m.pc (push (.indexed r offset)))
      (m.ram.push (m.ram.peek (m.ram.get r + offset))) := by
  refine lands_straight (a := 0) (d := m.ram.peek (m.ram.get r + offset)) stands rfl ?_
  rw [push, execAll_append]
  simp only [Ram.get] at cell ⊢
  simp only [addr, full, Register.cell_bound, cell, execAll_reference, execAll_load,
    execAll_onlyD, execAll_onlyA_of_registers, Comp.readsMemory_dPlusA, regs _, Comp.value_m,
    Comp.value_dPlusA, execAll_nil, Except.bind]
  exact execAll_pushD regs full bound base

/-- A statement that does nothing but load an address. -/
structure Loads (address : Symbol → UInt16) (s : Statement Symbol) (cell : UInt16) : Prop where
  falls : s.falls = true
  isWord : s.isWord = true
  effect : ∀ m, s.exec address m = .ok { m with a := cell }

omit regs full in
theorem loads_value (w : UInt16) : Loads address (.load w) w :=
  ⟨rfl, rfl, fun _ => rfl⟩

omit regs full in
theorem loads_reference (name : Symbol) : Loads address (.reference name) (address name) :=
  ⟨rfl, rfl, fun _ => rfl⟩

omit regs full in
theorem Loads.execAll_cons {s : Statement Symbol} {cell : UInt16} (h : Loads address s cell)
    (code : List (Statement Symbol)) :
    execAll address m (s :: code) = execAll address { m with a := cell } code := by
  simp only [execAll, List.foldlM_cons, h.effect]
  rfl

theorem pushFixed_lands {load : Statement Symbol} {cell : UInt16} (h : Loads address load cell)
    (stands : Stands rom address m.pc (push (.fixed load))) (there : cell < 32768)
    (bound : m.ram.get .sp < 32768) (base : m.ram.get .sp ≠ 0) :
    Lands rom m (wordCount (push (.fixed load))) (behind m.pc (push (.fixed load)))
      (m.ram.push (m.ram.peek cell)) := by
  have falls : (push (.fixed load)).all Statement.falls = true := by
    show (load.falls && true) = true
    rw [h.falls, Bool.and_true]
  refine lands_straight (a := 0) (d := m.ram.peek cell) stands falls ?_
  rw [push, execAll_append, h.execAll_cons]
  simp only [execAll_onlyD, full, there, Comp.value_m, execAll_nil, Except.bind]
  exact execAll_pushD regs full bound base

/-- The address waits in R13 while the word is popped. -/
theorem popIndexed_lands {r : Register} {offset cell : UInt16}
    (stands : Stands rom address m.pc (popIndexed r offset))
    (place : m.ram.get r + offset = cell) (there : cell < 32768)
    (top : m.ram.get .sp - 1 < 32768) :
    let kept := m.ram.set .r13 cell
    Lands rom m 12 (behind m.pc (popIndexed r offset))
      (kept.drop.poke cell (kept.drop.peek (m.ram.get .sp - 1))) := by
  intro kept
  refine lands_straight (a := cell) (d := kept.drop.peek (m.ram.get .sp - 1)) stands rfl ?_
  have stack : kept.get .sp = m.ram.get .sp := Ram.get_set_of_ne (by decide)
  have waits : kept.drop.peek Register.r13.cell = cell :=
    (Ram.get_drop (by decide)).trans full.get_set
  have first : execAll address m [addr r, .assign .onlyD .m, .load offset,
      .assign .onlyD .dPlusA, addr .r13, .assign .onlyM .d] =
      .ok { m with a := Register.r13.cell, d := cell, ram := kept } := by
    simp only [Ram.get] at place
    simp only [addr, full, Register.cell_bound, execAll_reference, execAll_load, execAll_onlyD,
      execAll_onlyD_of_registers, execAll_onlyM, Comp.readsMemory_dPlusA, regs _, Comp.value_m,
      Comp.value_d, Comp.value_dPlusA, place, execAll_nil, kept, Ram.set]
  rw [popIndexed, execAll_append, execAll_append, first]
  simp only [Except.bind]
  rw [execAll_popD regs (Ram.full_set.2 full) (by rwa [stack])]
  simp only [addr, execAll_reference, execAll_onlyA, execAll_onlyM, regs _, full, Ram.full_drop,
    Ram.full_set, kept, Register.cell_bound, Comp.value_m, Comp.value_d, execAll_nil,
    waits, stack, there]

theorem popFixed_lands {load : Statement Symbol} {cell : UInt16} (h : Loads address load cell)
    (stands : Stands rom address m.pc (popFixed load)) (there : cell < 32768)
    (top : m.ram.get .sp - 1 < 32768) :
    Lands rom m (wordCount (popFixed load)) (behind m.pc (popFixed load))
      (m.ram.drop.poke cell (m.ram.drop.peek (m.ram.get .sp - 1))) := by
  have falls : (popFixed load).all Statement.falls = true := by
    show (load.falls && true) = true
    rw [h.falls, Bool.and_true]
  refine lands_straight (a := cell) (d := m.ram.drop.peek (m.ram.get .sp - 1)) stands falls ?_
  rw [popFixed, execAll_append, execAll_popD regs full top]
  simp only [Except.bind, h.execAll_cons, execAll_onlyM, full, Ram.full_drop, there, Comp.value_d,
    execAll_nil]

omit regs full in
/-- A jump on registers alone. -/
theorem advance_branch {comp : Comp} {jump : Jump}
    (here : rom.instr? m.pc = some (.compute .none comp jump)) (h : comp.readsMemory = false) :
    m.advance rom 1 =
      .ok { m with
        pc := if jump.taken (comp.value m.d m.a (m.ram.peek m.a)) then m.a else m.pc + 1 } := by
  apply advance_one
  rw [step_of_instr? here, exec_compute (.inr (by simp [firstAccess?, h, Dest.none]))]
  rfl

omit regs full in
theorem goto_lands {target : Symbol}
    (stands : Stands rom address m.pc [.reference target, .branch .zero .always]) :
    Lands rom m 2 (address target) m.ram := by
  have loaded := advance_one (step_of_instr? stands.1)
  exact .after loaded (lands_of_advance (advance_branch stands.2.1 (by decide)))

theorem ifGoto_lands {target : Symbol}
    (stands : Stands rom address m.pc (popD ++ [.reference target, .branch .d .ne]))
    (top : m.ram.get .sp - 1 < 32768) :
    Lands rom m 5
      (if m.ram.drop.peek (m.ram.get .sp - 1) ≠ 0 then address target
        else behind m.pc (popD ++ [.reference target, .branch .d .ne]))
      m.ram.drop := by
  have pieces : popD ++ [.reference target, .branch .d .ne] =
      (popD ++ [.reference target]) ++ [.branch .d .ne] := rfl
  rw [pieces, stands_append] at stands
  have effect : execAll address m (popD ++ [.reference target]) = .ok { m with
      a := address target, d := m.ram.drop.peek (m.ram.get .sp - 1), ram := m.ram.drop } := by
    rw [execAll_append, execAll_popD regs full top]
    rfl
  have loaded := advance_straight stands.1 rfl effect rfl
  have jump := lands_of_advance (advance_branch (m := { m with
    pc := behind m.pc (popD ++ [.reference target]), a := address target
    d := m.ram.drop.peek (m.ram.get .sp - 1), ram := m.ram.drop }) stands.2.1 (by decide))
  rw [pieces, behind_append]
  refine .after (b := 1) loaded ?_
  simp only [Jump.taken, Comp.value_d, bne_iff_ne] at jump
  exact jump

/-- The word for a relation that holds or not. -/
def truth (b : Bool) : UInt16 :=
  if b then 0xFFFF else 0

/-- The difference of the operands of a comparison, in front of the branch. -/
def compareHead (r : Relation) (n : Nat) : List (Statement Symbol) :=
  popD ++ [.assign .onlyA .aMinusOne, .assign .onlyD .mMinusD, .reference (.made (.holds r) n)]

/-- The rest of a comparison, which has two ways to its end. -/
def compareTail (r : Relation) (n : Nat) : List (Statement Symbol) :=
  .branch .d (condition r) ::
    (unary .zero ++ (.reference (.made (.done r) n) :: .branch .zero .always ::
      .label (.made (.holds r) n) :: (unary .minusOne ++ [.label (.made (.done r) n)])))

omit regs full in
theorem compare_eq (r : Relation) (n : Nat) : compare r n = compareHead r n ++ compareTail r n :=
  rfl

theorem execAll_compareHead {r : Relation} {n : Nat} (top : m.ram.get .sp - 1 < 32768)
    (below : m.ram.get .sp - 2 < 32768) :
    execAll address m (compareHead r n) = .ok { m with
      a := address (.made (.holds r) n)
      d := m.ram.drop.peek (m.ram.get .sp - 2) - m.ram.drop.peek (m.ram.get .sp - 1)
      ram := m.ram.drop } := by
  have step : m.ram.get .sp - 1 - 1 = m.ram.get .sp - 2 := by grind
  rw [compareHead, execAll_append, execAll_popD regs full top]
  simp only [Except.bind, execAll_onlyA_of_registers, Comp.readsMemory_aMinusOne, execAll_onlyD,
    Comp.value_aMinusOne, Comp.value_mMinusD, full, Ram.full_drop, step, below, execAll_reference,
    execAll_nil]

/-- Either way the topmost word is replaced by the word for whether the jump was taken. -/
theorem compareTail_lands {r : Relation} {n : Nat}
    (stands : Stands rom address m.pc (compareTail r n))
    (loaded : m.a = address (.made (.holds r) n)) (bound : m.ram.get .sp - 1 < 32768) :
    ∃ k, Lands rom m k (behind m.pc (compareTail r n))
      (m.ram.poke (m.ram.get .sp - 1) (truth ((condition r).taken m.d))) := by
  obtain ⟨branch, stands⟩ := stands
  obtain ⟨no, load, skip, holds, stands⟩ := stands_append.1 stands
  obtain ⟨yes, done, -⟩ := stands_append.1 stands
  have ending : behind m.pc (compareTail r n) = address (.made (.done r) n) := by
    rw [compareTail, done]
    simp only [behind_append, behind_instr, behind_reference, behind_label, behind_nil,
      Statement.branch]
  rw [ending]
  -- The target was loaded in front of the branch, so A is the label of the other way.
  have chosen := advance_branch branch (by decide)
  rw [Comp.value_d] at chosen
  rw [← holds, ← loaded] at yes done
  cases relation : (condition r).taken m.d with
  | true =>
    rw [relation, if_pos rfl] at chosen
    have set := unary_lands regs full yes bound (m := { m with pc := m.a })
    rw [← done, Comp.value_minusOne] at set
    exact ⟨_, .after chosen set⟩
  | false =>
    rw [relation, if_neg (by decide)] at chosen
    have set := advance_straight no rfl
      (execAll_unary regs full bound (m := { m with pc := m.pc + 1 })) rfl
    rw [Comp.value_zero] at set
    have left := goto_lands ⟨load, skip, trivial⟩
      (m := { m with
        pc := behind (m.pc + 1) (unary .zero), a := m.ram.get .sp - 1
        ram := m.ram.poke (m.ram.get .sp - 1) 0 })
    exact ⟨_, .after chosen (.after set left)⟩

/-- A comparison replaces its operands `x` and `y` by a word for what the sign of `x - y` says. -/
theorem compare_lands {r : Relation} {n : Nat} (stands : Stands rom address m.pc (compare r n))
    (top : m.ram.get .sp - 1 < 32768) (below : m.ram.get .sp - 2 < 32768) :
    ∃ k, Lands rom m (k + 1) (behind m.pc (compare r n))
      (m.ram.drop.poke (m.ram.get .sp - 2)
        (truth ((condition r).taken
          (m.ram.drop.peek (m.ram.get .sp - 2) - m.ram.drop.peek (m.ram.get .sp - 1))))) := by
  have stack : m.ram.drop.get .sp - 1 = m.ram.get .sp - 2 := by
    rw [full.get_sp_drop]
    grind
  rw [compare_eq, stands_append] at stands
  have compared := advance_straight stands.1 rfl (execAll_compareHead regs full top below) rfl
  obtain ⟨k, chosen⟩ := compareTail_lands regs (Ram.full_drop.2 full)
    (m := { m with
      pc := behind m.pc (compareHead r n), a := address (.made (.holds r) n)
      d := m.ram.drop.peek (m.ram.get .sp - 2) - m.ram.drop.peek (m.ram.get .sp - 1)
      ram := m.ram.drop }) stands.2 rfl (stack ▸ below)
  rw [stack] at chosen
  rw [compare_eq, behind_append]
  have lands := Lands.after compared chosen
  rw [Nat.add_comm] at lands
  exact ⟨_, lands⟩

/-! ## The loop that clears local variables -/

/-- One turn of the loop, without the jump back. -/
def clearTurn (number : Nat) : List (Statement Symbol) :=
  [addr .sp, .assign .onlyA .m, .assign .onlyM .zero, addr .sp, .assign .onlyM .mPlusOne,
   .assign .onlyD .dMinusOne, .reference (.made .clear number)]

omit regs full in
theorem clear_eq (n : UInt16) (number : Nat) :
    clear n number = [.load n, .assign .onlyD .a] ++
      (.label (.made .clear number) :: (clearTurn number ++ [.branch .d .gt])) :=
  rfl

theorem execAll_clearTurn {number : Nat} (bound : m.ram.get .sp < 32768)
    (base : m.ram.get .sp ≠ 0) :
    execAll address m (clearTurn number) = .ok { m with
      a := address (.made .clear number), d := m.d - 1, ram := m.ram.push 0 } := by
  have keep : (m.ram.poke (m.ram.get .sp) 0).get .sp = m.ram.get .sp :=
    Ram.peek_poke_of_ne m.ram 0 base.symm
  simp only [Ram.get] at bound keep
  simp only [clearTurn, addr, full, Ram.full_poke, Register.cell_bound, bound, execAll_reference,
    execAll_onlyA, execAll_onlyD_of_registers, execAll_onlyM, Comp.readsMemory_dMinusOne, regs _,
    Comp.value_m, Comp.value_zero, Comp.value_mPlusOne, Comp.value_dMinusOne, execAll_nil,
    Ram.push, Ram.get, Ram.set, keep]

/-- The cells that `n` pushes fill are on the bus, and the stack pointer is not among them. -/
def Room (ram : Ram) (n : Nat) : Prop :=
  ∀ i < n, ram.get .sp + i.toUInt16 < 32768 ∧ ram.get .sp + i.toUInt16 ≠ 0

omit regs full in
theorem room_of_bounds {ram : Ram} {n : Nat} (low : 1 ≤ (ram.get .sp).toNat)
    (high : (ram.get .sp).toNat + n ≤ 32768) : Room ram n := by
  intro i small
  have place : (ram.get .sp + i.toUInt16).toNat = (ram.get .sp).toNat + i := by
    rw [UInt16.toNat_add, toNat_toUInt16 (by omega), Nat.mod_eq_of_lt (by omega)]
  refine ⟨Ram.below_iff.2 (by omega), fun zero => ?_⟩
  rw [zero, UInt16.toNat_zero] at place
  omega

omit regs full in
theorem Room.head {ram : Ram} {n : Nat} (room : Room ram (n + 1)) :
    ram.get .sp < 32768 ∧ ram.get .sp ≠ 0 := by
  have first := room 0 (Nat.succ_pos n)
  rwa [show (0 : Nat).toUInt16 = 0 from rfl, UInt16.add_zero] at first

omit regs full in
theorem Room.tail {ram : Ram} {n : Nat} {w : UInt16} (full : ram.Full) (room : Room ram (n + 1)) :
    Room (ram.push w) n := by
  intro i hi
  have next := room (i + 1) (Nat.succ_lt_succ hi)
  rw [Nat.add_comm, toUInt16_add, ← UInt16.add_assoc] at next
  rw [full.get_sp_push]
  exact next

/-- One turn of the loop takes eight steps. -/
theorem clearTurn_advance {number : Nat} {head : UInt16}
    (label : address (.made .clear number) = head)
    (turn : Stands rom address head (clearTurn number ++ [.branch .d .gt]))
    (bound : m.ram.get .sp < 32768) (base : m.ram.get .sp ≠ 0) (pc : m.pc = head) :
    m.advance rom 8 = .ok
      { pc := if Jump.gt.taken (m.d - 1) then head else behind head (clearTurn number) + 1
        a := head, d := m.d - 1, ram := m.ram.push 0 } := by
  obtain ⟨straight, branch, -⟩ := stands_append.1 turn
  have once := advance_straight straight rfl (execAll_clearTurn regs full bound base) pc
  have jump := advance_branch branch (by decide)
    (m := ⟨behind head (clearTurn number), head, m.d - 1, m.ram.push 0⟩)
  rw [Comp.value_d] at jump
  rw [label] at once
  exact advance_trans once jump

/-- A turn stays within the loop. -/
theorem clearTurn_stays {number : Nat} {start : UInt16} {length i : Nat}
    (turn : Stands rom address m.pc (clearTurn number ++ [.branch .d .gt]))
    (bound : m.ram.get .sp < 32768) (base : m.ram.get .sp ≠ 0)
    (place : m.pc = start + i.toUInt16) (fits : i + 8 ≤ length) : Stays rom m 8 start length := by
  obtain ⟨straight, branch, -⟩ := stands_append.1 turn
  have effect : execAll address m (clearTurn number) = .ok _ :=
    execAll_clearTurn regs full bound base
  have words : wordCount (clearTurn number) = 7 := rfl
  have last : behind m.pc (clearTurn number) = start + (i + 7).toUInt16 := by
    rw [behind, place, words, toUInt16_add, UInt16.add_assoc]
  have front : Stays rom m 7 start length :=
    stays_straight straight rfl effect place (by omega)
  exact front.after (advance_straight straight rfl effect rfl) (stays_one last (by omega))

/-- The loop from its label, with words left to clear. -/
theorem clearLoop_lands {number k : Nat} {head start : UInt16} {length i : Nat}
    (label : address (.made .clear number) = head)
    (turn : Stands rom address head (clearTurn number ++ [.branch .d .gt]))
    (small : k + 1 ≤ 32767) (room : Room m.ram (k + 1)) (pc : m.pc = head)
    (count : m.d = (k + 1).toUInt16) (place : head = start + i.toUInt16) (fits : i + 8 ≤ length) :
    Lands rom m (8 * (k + 1)) (behind head (clearTurn number) + 1) (m.ram.clear (k + 1)) ∧
      Stays rom m (8 * (k + 1)) start length := by
  -- D counts the words left, so the branch asks what the induction asks.
  induction k generalizing m with
  | zero =>
    have once := clearTurn_advance regs full label turn room.head.1 room.head.2 pc
    have within := clearTurn_stays regs full (pc ▸ turn) room.head.1 room.head.2 (pc.trans place) fits
    rw [count, if_neg (by decide)] at once
    rw [Ram.clear_succ]
    exact ⟨lands_of_advance once, within⟩
  | succ k ih =>
    have once := clearTurn_advance regs full label turn room.head.1 room.head.2 pc
    have within := clearTurn_stays regs full (pc ▸ turn) room.head.1 room.head.2 (pc.trans place) fits
    have value : (k + 1).toUInt16.toNat = k + 1 := toNat_toUInt16 (by omega)
    have left : m.d - 1 = (k + 1).toUInt16 := by
      rw [count, toUInt16_add (k + 1)]
      exact UInt16.add_sub_cancel _ _
    have more : Jump.gt.taken (k + 1).toUInt16 = true := by
      have below : (k + 1).toUInt16 < 32768 := by
        rw [Ram.below_iff, value]
        omega
      rw [Jump.taken_gt_iff below]
      intro zero
      rw [zero] at value
      exact absurd value (by simp)
    rw [left, if_pos more] at once
    obtain ⟨lands, stays⟩ := ih (Ram.full_push.2 full) (by omega) (room.tail full) rfl rfl
      (m := ⟨head, head, (k + 1).toUInt16, m.ram.push 0⟩)
    rw [Nat.mul_succ, Nat.add_comm, Ram.clear_succ]
    exact ⟨.after once lands, within.after once stays⟩

/-- The words are cleared in eight steps each, after two that load their number. -/
theorem clear_lands {n : UInt16} {number : Nat} (stands : Stands rom address m.pc (clear n number))
    (positive : n ≠ 0) (small : n ≤ 32767) (room : Room m.ram n.toNat) :
    Lands rom m (2 + 8 * n.toNat) (behind m.pc (clear n number)) (m.ram.clear n.toNat) ∧
      Stays rom m (2 + 8 * n.toNat) m.pc (wordCount (clear n number)) := by
  obtain ⟨k, hk⟩ : ∃ k, n.toNat = k + 1 :=
    Nat.exists_eq_succ_of_ne_zero fun h => positive (UInt16.toNat_inj.1 h)
  have bound : n.toNat ≤ 32767 := small
  have words : wordCount (clear n number) = 10 := rfl
  rw [clear_eq] at stands
  obtain ⟨first, label, turn⟩ := stands_append.1 stands
  have counted : execAll address m [.load n, .assign .onlyD .a] = .ok { m with a := n, d := n } := by
    simp only [execAll_load, execAll_onlyD_of_registers, Comp.readsMemory_a, Comp.value_a,
      execAll_nil]
  have start := advance_straight first rfl counted rfl
  have value : n = (k + 1).toUInt16 := by
    rw [← hk]
    exact (UInt16.ofNat_toNat).symm
  rw [hk] at room bound ⊢
  have head : behind m.pc ([.load n, .assign .onlyD .a] : List (Statement Symbol)) =
      m.pc + (2 : Nat).toUInt16 := rfl
  have fits : 2 + 8 ≤ wordCount (clear n number) := by omega
  obtain ⟨loop, within⟩ := clearLoop_lands regs full label turn bound room rfl value head fits
    (m := ⟨behind m.pc [.load n, .assign .onlyD .a], n, n, m.ram⟩)
  have ending : behind m.pc (clear n number) =
      behind (behind m.pc ([.load n, .assign .onlyD .a] : List (Statement Symbol)))
        (clearTurn number) + 1 := by
    rw [clear_eq, behind_append, behind_label, behind_append]
    rfl
  have two : wordCount ([.load n, .assign .onlyD .a] : List (Statement Symbol)) = 2 := rfl
  have front : Stays rom m 2 m.pc (wordCount (clear n number)) :=
    stays_straight (i := 0) first rfl counted (UInt16.add_zero _).symm (by omega)
  rw [ending]
  exact ⟨.after start loop, front.after start within⟩

end HackPlatform.Vm.Code
