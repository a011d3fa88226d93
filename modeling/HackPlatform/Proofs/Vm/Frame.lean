import HackPlatform.Proofs.Vm.Execution

/-!
# Calls and returns

A call comes to the callee's label with the frame saved and set; a return comes to the address
that was saved. The return keeps that address in R14 and the frame in R13, because the result it
hands over may lie where the address was, and the frame is cut while it is read.
-/

namespace HackPlatform.Vm.Code

open Asm Machine

variable {rom : Rom} {address : Symbol → UInt16} {m : Machine}

/-- The words of a frame that are set after the saving. -/
def callFrame (offset : UInt16) : List (Statement Symbol) :=
  [addr .sp, .assign .onlyD .m, .load offset, .assign .onlyD .dMinusA, addr .arg, .assign .onlyM .d,
   addr .sp, .assign .onlyD .m, addr .lcl, .assign .onlyM .d]

/-- A call up to its jump. -/
def callHead (callee : String) (offset : UInt16) (number : Nat) : List (Statement Symbol) :=
  [.reference (.made (.resume callee) number), .assign .onlyD .a] ++
    (pushD ++ ([Register.lcl, .arg, .this, .that].flatMap save ++ callFrame offset))

theorem call_eq (callee : String) (offset : UInt16) (number : Nat) :
    call callee offset number = callHead callee offset number ++
      ([.reference (.function callee), .branch .zero .always] ++
        [.label (.made (.resume callee) number)]) := by
  simp [call, callHead, callFrame, List.append_assoc]

/-- A return up to the end of the saving of frame and address. -/
def retKeep : List (Statement Symbol) :=
  [addr .lcl, .assign .onlyD .m, addr .r13, .assign .onlyM .d,
   .load frameSize, .assign .onlyA .dMinusA, .assign .onlyD .m, addr .r14, .assign .onlyM .d]

/-- The topmost word goes to the first argument's cell, and the stack is cut behind it. -/
def retHand : List (Statement Symbol) :=
  popD ++ [addr .arg, .assign .onlyA .m, .assign .onlyM .d,
    addr .arg, .assign .onlyD .mPlusOne, addr .sp, .assign .onlyM .d]

/-- The caller's registers are taken from the frame. -/
def retFrame : List (Statement Symbol) :=
  [(Register.that, 1), (.this, 2), (.arg, 3), (.lcl, 4)].flatMap fun r => restore r.1 r.2

theorem ret_eq :
    ret = (retKeep ++ (retHand ++ retFrame)) ++
      ([addr .r14, .assign .onlyA .m] ++ [.branch .zero .always]) := by
  simp [ret, retKeep, retHand, retFrame, List.append_assoc]

variable (regs : RegistersAt address) (full : m.ram.Full)

include regs full

/-- Registers are saved one after the other. -/
theorem execAll_saves (rs : List Register) (room : Room m.ram rs.length) :
    ∃ a d, execAll address m (rs.flatMap save) =
      .ok { m with a := a, d := d, ram := rs.foldl Ram.save m.ram } := by
  induction rs generalizing m with
  | nil => exact ⟨m.a, m.d, rfl⟩
  | cons r rs ih =>
    have first := execAll_save regs full r room.head.1 room.head.2
    obtain ⟨a, d, rest⟩ := ih (Ram.full_save.2 full) (room.tail full)
      (m := { m with a := 0, d := m.ram.get r, ram := m.ram.save r })
    refine ⟨a, d, ?_⟩
    rw [List.flatMap_cons, execAll_append, first]
    exact rest

theorem execAll_callFrame {offset : UInt16} :
    let framed := m.ram.set .arg (m.ram.get .sp - offset)
    execAll address m (callFrame offset) = .ok { m with
      a := Register.lcl.cell, d := framed.get .sp, ram := framed.set .lcl (framed.get .sp) } := by
  simp only [callFrame, addr, execAll_reference, execAll_load, execAll_onlyD,
    execAll_onlyD_of_registers, execAll_onlyM, Comp.readsMemory_dMinusA, regs _, full,
    Ram.full_poke, Register.cell_bound, Comp.value_m, Comp.value_d, Comp.value_dMinusA,
    execAll_nil, Ram.set, Ram.get]

theorem execAll_callHead {callee : String} {offset : UInt16} {number : Nat}
    (room : Room m.ram 5) :
    ∃ a d, execAll address m (callHead callee offset number) = .ok { m with
      a := a, d := d, ram := m.ram.enter (address (.made (.resume callee) number)) offset } := by
  let resume := address (.made (.resume callee) number)
  have loaded : execAll address m
      [.reference (.made (.resume callee) number), .assign .onlyD .a] =
      .ok { m with a := resume, d := resume } := by
    simp only [execAll_reference, execAll_onlyD_of_registers, Comp.readsMemory_a, Comp.value_a,
      execAll_nil, resume]
  have pushed := execAll_pushD regs (m := { m with a := resume, d := resume }) full
    room.head.1 room.head.2
  have pushedFull : (m.ram.push resume).Full := Ram.full_push.2 full
  obtain ⟨a, d, saved⟩ := execAll_saves regs pushedFull [.lcl, .arg, .this, .that]
    (m := { m with a := 0, d := resume, ram := m.ram.push resume }) (room.tail full)
  have front : execAll address m (callHead callee offset number) =
      execAll address { m with
        a := a, d := d, ram := [Register.lcl, .arg, .this, .that].foldl Ram.save (m.ram.push resume) }
        (callFrame offset) := by
    rw [callHead, execAll_after loaded, execAll_after pushed, execAll_after saved]
  exact ⟨_, _, front.trans (execAll_callFrame regs (by simpa))⟩

/-- A call comes to the callee with the frame that the stack machine sets. -/
theorem call_lands {callee : String} {offset : UInt16} {number : Nat}
    (stands : Stands rom address m.pc (call callee offset number)) (room : Room m.ram 5) :
    ∃ k, Lands rom m (k + 1) (address (.function callee))
      (m.ram.enter (behind m.pc (call callee offset number)) offset) := by
  rw [call_eq, stands_append, stands_append] at stands
  obtain ⟨head, jump, resume, -⟩ := stands
  have ending : behind m.pc (call callee offset number) =
      address (.made (.resume callee) number) := by
    rw [resume, call_eq, behind_append, behind_append, behind_label, behind_nil]
  obtain ⟨a, d, effect⟩ := execAll_callHead regs full room
  have saved := advance_straight head rfl effect rfl
  rw [ending]
  exact ⟨_, .after (b := 2) saved (goto_lands jump)⟩

theorem execAll_retKeep (bound : m.ram.get .lcl - frameSize < 32768) :
    let kept := m.ram.set .r13 (m.ram.get .lcl)
    execAll address m retKeep = .ok { m with
      a := Register.r14.cell
      d := kept.peek (m.ram.get .lcl - frameSize)
      ram := kept.set .r14 (kept.peek (m.ram.get .lcl - frameSize)) } := by
  intro kept
  simp only [Ram.get] at bound
  simp only [retKeep, addr, execAll_reference, execAll_load, execAll_onlyD, execAll_onlyM,
    execAll_onlyA_of_registers, Comp.readsMemory_dMinusA, regs _, full, Ram.full_poke,
    Register.cell_bound, bound, Comp.value_m, Comp.value_d, Comp.value_dMinusA, execAll_nil,
    kept, Ram.set, Ram.get]

theorem execAll_retHand (top : 16 ≤ m.ram.get .sp - 1) (bound : m.ram.get .sp - 1 < 32768)
    (place : m.ram.get .arg < 32768) :
    let handed := m.ram.drop.poke (m.ram.get .arg) m.ram.top
    execAll address m retHand = .ok { m with
      a := Register.sp.cell
      d := handed.get .arg + 1
      ram := handed.set .sp (handed.get .arg + 1) } := by
  intro handed
  have word : m.ram.drop.peek (m.ram.get .sp - 1) = m.ram.top := Ram.peek_set top
  have arg : m.ram.drop.peek Register.arg.cell = m.ram.get .arg := Ram.get_drop (by decide)
  rw [retHand, execAll_append, execAll_popD regs full bound]
  simp only [Except.bind, addr, execAll_reference, execAll_onlyA, execAll_onlyM, execAll_onlyD,
    regs _, full, Ram.full_poke, Ram.full_drop, Register.cell_bound, arg, place, Comp.value_m,
    Comp.value_d, Comp.value_mPlusOne, execAll_nil, word]
  rfl

/-- Registers are restored one after the other, while R13 keeps the frame. -/
theorem execAll_restores {frame : UInt16} (rs : List (Register × UInt16))
    (kept : m.ram.get .r13 = frame) (bound : ∀ r ∈ rs, r.1 ≠ .r13 ∧ frame - r.2 < 32768) :
    ∃ a d, execAll address m (rs.flatMap fun r => restore r.1 r.2) = .ok { m with
      a := a, d := d, ram := rs.foldl (fun ram r => ram.restore frame r.1 r.2) m.ram } := by
  induction rs generalizing m with
  | nil => exact ⟨m.a, m.d, rfl⟩
  | cons r rs ih =>
    rw [List.forall_mem_cons] at bound
    have first := execAll_restore regs full r.1 r.2 (kept ▸ bound.1.2)
    rw [kept] at first
    have kept' : (m.ram.restore frame r.1 r.2).get .r13 = frame :=
      (Ram.get_set_of_ne bound.1.1.symm).trans kept
    obtain ⟨a, d, rest⟩ := ih (Ram.full_restore.2 full) kept' bound.2
      (m := { m with
        a := r.1.cell, d := m.ram.peek (frame - r.2), ram := m.ram.restore frame r.1 r.2 })
    refine ⟨a, d, ?_⟩
    rw [List.flatMap_cons, execAll_append, first]
    exact rest

/-- The result is handed over and the frame cut, while R13 keeps where the frame was. -/
theorem execAll_retBody {frame : UInt16} (kept : m.ram.get .r13 = frame)
    (bound : ∀ i ∈ [1, 2, 3, 4], frame - i < 32768)
    (place : 16 ≤ m.ram.get .arg ∧ m.ram.get .arg < 32768)
    (top : 16 ≤ m.ram.get .sp - 1 ∧ m.ram.get .sp - 1 < 32768) :
    ∃ a d, execAll address m (retHand ++ retFrame) =
      .ok { m with a := a, d := d, ram := m.ram.leave frame } := by
  have hand := execAll_retHand regs full top.1 top.2 place.2
  let handed := m.ram.drop.poke (m.ram.get .arg) m.ram.top
  have waits : (handed.set .sp (handed.get .arg + 1)).get .r13 = frame := by
    rw [Ram.get_set_of_ne (by decide), Ram.get_poke place.1, Ram.get_drop (by decide), kept]
  obtain ⟨a, d, restored⟩ := execAll_restores regs
    (m := { m with
      a := Register.sp.cell, d := handed.get .arg + 1
      ram := handed.set .sp (handed.get .arg + 1) })
    (by simpa [handed]) [(.that, 1), (.this, 2), (.arg, 3), (.lcl, 4)] waits (by simpa using bound)
  exact ⟨a, d, (execAll_after hand _).trans restored⟩

/-- A return comes to the address that lies five words below the frame, and leaves the frame in
R13 and that address in R14. -/
theorem ret_lands {frame : UInt16} (stands : Stands rom address m.pc ret)
    (lcl : m.ram.get .lcl = frame) (bound : ∀ i ∈ [1, 2, 3, 4, 5], frame - i < 32768)
    (place : 16 ≤ m.ram.get .arg ∧ m.ram.get .arg < 32768)
    (top : 16 ≤ m.ram.get .sp - 1 ∧ m.ram.get .sp - 1 < 32768) :
    let kept := m.ram.set .r13 frame
    let back := kept.peek (frame - frameSize)
    ∃ k, Lands rom m (k + 1) back ((kept.set .r14 back).leave frame) := by
  intro kept back
  subst lcl
  have keep := execAll_retKeep regs full (bound 5 (by decide))
  have fullKept : (kept.set .r14 back).Full := by
    rwa [Ram.full_set, Ram.full_set]
  have sp : (kept.set .r14 back).get .sp = m.ram.get .sp := by
    rw [Ram.get_set_of_ne (by decide), Ram.get_set_of_ne (by decide)]
  have arg : (kept.set .r14 back).get .arg = m.ram.get .arg := by
    rw [Ram.get_set_of_ne (by decide), Ram.get_set_of_ne (by decide)]
  have r13 : (kept.set .r14 back).get .r13 = m.ram.get .lcl :=
    (Ram.get_set_of_ne (by decide)).trans full.get_set
  have r14 : (kept.set .r14 back).get .r14 = back := (Ram.full_set.2 full).get_set
  rw [← arg] at place
  rw [← sp] at top
  obtain ⟨a, d, body⟩ := execAll_retBody regs fullKept r13
    (fun i hi => bound i (List.mem_append_left [5] hi)) place top
    (m := { m with a := Register.r14.cell, d := back, ram := kept.set .r14 back })
  -- Without arguments the result lies where the address was saved; R14 has kept the address.
  have left : ((kept.set .r14 back).leave (m.ram.get .lcl)).get .r14 = back := by
    rw [Ram.get_leave place.1 (.inr rfl), r14]
  have loaded : execAll address m ((retKeep ++ (retHand ++ retFrame)) ++
      [addr .r14, .assign .onlyA .m]) = .ok { m with
        a := back, d := d, ram := (kept.set .r14 back).leave (m.ram.get .lcl) } := by
    rw [execAll_after ((execAll_after keep _).trans body)]
    simp only [addr, execAll_reference, execAll_onlyA, regs _, Ram.full_leave, fullKept,
      Register.cell_bound, Comp.value_m, execAll_nil]
    exact congrArg (fun w => Except.ok { m with
      a := w, d := d, ram := (kept.set .r14 back).leave (m.ram.get .lcl) }) left
  rw [ret_eq, ← List.append_assoc, stands_append] at stands
  have start := advance_straight stands.1 rfl loaded rfl
  have jump := lands_of_advance (advance_branch stands.2.1 (by decide) (m := { m with
    pc := behind m.pc ((retKeep ++ (retHand ++ retFrame)) ++ [addr .r14, .assign .onlyA .m])
    a := back, d := d, ram := (kept.set .r14 back).leave (m.ram.get .lcl) }))
  exact ⟨_, .after (b := 1) start jump⟩

end HackPlatform.Vm.Code
