import HackPlatform.Proofs.Vm.Operators

/-!
# Transfers in place

A push reads its word before it touches the stack, and a pop takes its word off before it stores it.
So both have one effect on memory whatever the cell of the place is: it may lie in the stack, or be
the stack pointer, the scratch register or the register that the place is counted from.
-/

namespace HackPlatform.Vm

open Asm (Stands behind wordCount)
open Machine (Lands)

namespace Segment

/-- Memory while a pop waits for its word: the address of a cell that moves is kept in R13. -/
def kept (ram : Ram) (cell : UInt16) (segment : Segment) : Ram :=
  if segment.base?.isSome then ram.set .r13 cell else ram

/-- Memory after a pop: the stack pointer goes down, and then the word is stored. -/
def popped (ram : Ram) (cell : UInt16) (segment : Segment) : Ram :=
  ((segment.kept ram cell).set .sp (ram.get .sp - 1)).poke cell ram.top

variable {l : Layout} {unit : String} {index cell addr : UInt16} {ram : Ram} {segment : Segment}

@[simp] theorem full_kept : (segment.kept ram cell).Full ↔ ram.Full := by
  unfold kept
  split <;> simp

@[simp] theorem full_popped : (segment.popped ram cell).Full ↔ ram.Full := by
  simp [popped]

/-- Only R13 changes while a pop waits. -/
theorem peek_kept (h : addr ≠ 13) : (segment.kept ram cell).peek addr = ram.peek addr := by
  unfold kept
  split
  · exact Ram.peek_poke_of_ne ram cell h
  · rfl

theorem kept_agrees (full : ram.Full) : (segment.kept ram cell).Agrees ram := by
  unfold kept
  split
  · exact full.agrees_self.set_scratch (.inl rfl)
  · exact full.agrees_self

/-- Where an index lies depends on the register of its segment only. -/
theorem cell?_congr {ram' : Ram} (same : ∀ r, segment.base? = some r → ram'.get r = ram.get r) :
    segment.cell? l unit ram' index = segment.cell? l unit ram index := by
  cases segment with
  | locals | argument | this | that => rw [cell?, cell?, same _ rfl]
  | _ => rfl

/-- Only a constant has no cell. -/
theorem exists_cell (stored : segment ≠ .constant) :
    ∃ cell, segment.cell? l unit ram index = some cell := by
  cases segment with
  | constant => exact absurd rfl stored
  | _ => exact ⟨_, rfl⟩

/-- The registers that places are counted from are neither the stack pointer nor R13. -/
theorem base?_ne {r : Register} (h : segment.base? = some r) : r ≠ .sp ∧ r ≠ .r13 := by
  cases segment <;> cases h <;> decide

section Popped

variable (pointer : cell ≠ 0)

include pointer

theorem get_sp_kept : ((segment.kept ram cell).poke cell addr).get .sp = ram.get .sp :=
  (Ram.peek_poke_of_ne _ _ pointer.symm).trans (peek_kept (by decide))

/-- A word may be stored before the stack pointer goes down, when it does not go over it. -/
theorem popped_eq_drop :
    segment.popped ram cell = ((segment.kept ram cell).poke cell ram.top).drop := by
  rw [Ram.drop, get_sp_kept pointer]
  exact Ram.poke_comm _ _ _ pointer.symm

theorem get_sp_popped (full : ram.Full) : (segment.popped ram cell).get .sp = ram.get .sp - 1 := by
  have stored : ((segment.kept ram cell).poke cell ram.top).Full :=
    Ram.full_poke.2 (full_kept.2 full)
  rw [popped_eq_drop pointer, stored.get_sp_drop, get_sp_kept pointer]

/-- The place of a pop stays where it is, when the pop does not go over its register. -/
theorem cell?_popped (base : ∀ r, segment.base? = some r → cell ≠ r.cell) :
    segment.cell? l unit (segment.popped ram cell) index = segment.cell? l unit ram index := by
  refine cell?_congr fun r moves => ?_
  obtain ⟨stack, scratch⟩ := base?_ne moves
  rw [popped_eq_drop pointer, Ram.get_drop stack]
  refine (Ram.peek_poke_of_ne _ _ (base r moves).symm).trans (peek_kept fun same => ?_)
  exact scratch (Register.cell_injective same)

/-- A push from the place of a pop puts the word back where it was. -/
theorem push_popped (full : ram.Full) (there : segment.cell? l unit ram index = some cell)
    (bound : cell < 32768) (base : ∀ r, segment.base? = some r → cell ≠ r.cell)
    (scratch : ram.get .sp - 1 ≠ 13) (top : ram.get .sp - 1 ≠ 0) :
    (segment.popped ram cell).push (segment.load l unit (segment.popped ram cell) index) =
      (segment.kept ram cell).poke cell ram.top := by
  have fullKept : (segment.kept ram cell).Full := full_kept.2 full
  have sp : ((segment.kept ram cell).poke cell ram.top).get .sp = ram.get .sp := get_sp_kept pointer
  have word : segment.load l unit (segment.popped ram cell) index = ram.top := by
    rw [load, cell?_popped pointer base, there]
    exact (Ram.full_set.2 fullKept).peek_poke bound
  have inPlace : ((segment.kept ram cell).poke cell ram.top).peek (ram.get .sp - 1) = ram.top := by
    by_cases same : ram.get .sp - 1 = cell
    · rw [same]
      exact fullKept.peek_poke bound
    · exact (Ram.peek_poke_of_ne _ _ same).trans (peek_kept scratch)
  rw [word, popped_eq_drop pointer, (Ram.full_poke.2 fullKept).drop_push (sp ▸ top), sp]
  have stays := Ram.poke_peek ((segment.kept ram cell).poke cell ram.top) (ram.get .sp - 1)
  rwa [inPlace] at stays

end Popped

end Segment

namespace Command

variable {rom : Rom} {address : Symbol → UInt16} {m : Machine} {l : Layout} {scope : Scope}
  {segment : Segment} {index : UInt16}

variable (regs : Code.RegistersAt address) (full : m.ram.Full)
  (static : l.static scope.unit index = address (.static scope.unit index))

include regs full static

/-- The block of a push puts the word of its place on the stack. -/
theorem push_lands
    (stands : Stands rom address m.pc ((Command.push segment index).code scope))
    (there : ∀ cell, segment.cell? l scope.unit m.ram index = some cell → cell < 32768)
    (bound : m.ram.get .sp < 32768) (base : m.ram.get .sp ≠ 0) :
    Lands rom m (wordCount ((Command.push segment index).code scope))
      (behind m.pc ((Command.push segment index).code scope))
      (m.ram.push (segment.load l scope.unit m.ram index)) := by
  cases segment with
  | constant => exact Code.pushValue_lands regs full stands bound base
  | locals | argument | this | that =>
    exact Code.pushIndexed_lands regs full stands (there _ rfl) bound base
  | static =>
    have cell : address (.static scope.unit index) < 32768 := static ▸ there _ rfl
    have lands := Code.pushFixed_lands regs full (Code.loads_reference _) stands cell bound base
    rwa [← static] at lands
  | temp => exact Code.pushFixed_lands regs full (Code.loads_value _) stands (there _ rfl) bound base
  | pointer =>
    have cell := regs (if index = 0 then .this else .that)
    have lands := Code.pushFixed_lands regs full (Code.loads_reference _) stands
      (cell ▸ Register.cell_bound _) bound base
    rwa [cell, apply_ite Register.cell] at lands

/-- The block of a pop takes the topmost word off and stores it in the cell of its place. The word
must not lie where the block itself writes before it is read. -/
theorem pop_lands {cell : UInt16}
    (stands : Stands rom address m.pc ((Command.pop segment index).code scope))
    (there : segment.cell? l scope.unit m.ram index = some cell) (inside : cell < 32768)
    (bound : m.ram.get .sp - 1 < 32768) (top : m.ram.get .sp - 1 ≠ 0)
    (scratch : m.ram.get .sp - 1 ≠ 13) :
    Lands rom m (wordCount ((Command.pop segment index).code scope))
      (behind m.pc ((Command.pop segment index).code scope)) (segment.popped m.ram cell) := by
  have moved {r : Register} (stands : Stands rom address m.pc (Code.popIndexed r index))
      (place : m.ram.get r + index = cell) :
      Lands rom m (wordCount (Code.popIndexed r index)) (behind m.pc (Code.popIndexed r index))
        (((m.ram.set .r13 cell).set .sp (m.ram.get .sp - 1)).poke cell m.ram.top) := by
    have lands := Code.popIndexed_lands regs full stands place inside bound
    have sp : (m.ram.set .r13 cell).get .sp = m.ram.get .sp := Ram.get_set_of_ne (by decide)
    have word : (m.ram.set .r13 cell).peek (m.ram.get .sp - 1) = m.ram.top :=
      Ram.peek_poke_of_ne _ _ scratch
    dsimp only at lands
    rw [Ram.peek_drop _ top, word, Ram.drop, sp] at lands
    exact lands
  have fixed {load : Asm.Statement Symbol} (loads : Code.Loads address load cell)
      (stands : Stands rom address m.pc (Code.popFixed load)) :
      Lands rom m (wordCount (Code.popFixed load)) (behind m.pc (Code.popFixed load))
        (m.ram.drop.poke cell m.ram.top) := by
    have lands := Code.popFixed_lands regs full loads stands inside bound
    rwa [Ram.peek_drop _ top] at lands
  cases segment with
  | constant => cases there
  | locals | argument | this | that => exact moved stands (Option.some.inj there)
  | static =>
    have cell : address (.static scope.unit index) = cell := static.symm.trans (Option.some.inj there)
    exact fixed (cell ▸ Code.loads_reference _) stands
  | temp => exact fixed (Option.some.inj there ▸ Code.loads_value _) stands
  | pointer =>
    have place := regs (if index = 0 then .this else .that)
    rw [apply_ite Register.cell] at place
    exact fixed ((place.trans (Option.some.inj there)) ▸ Code.loads_reference _) stands

end Command

end HackPlatform.Vm
