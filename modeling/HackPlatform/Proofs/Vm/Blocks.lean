import HackPlatform.Proofs.Vm.Frame
import HackPlatform.Proofs.Vm.Transfers

/-!
# Blocks carry out commands

What the machine does with the block of a command is what the stack machine does with the command,
but for the scratch registers. A block leads to the address behind it, unless it jumps.
-/

namespace HackPlatform

namespace Vm

open Asm (Statement Stands behind wordCount)
open Machine (Lands)

/-- The machine comes to an address with a memory that agrees with a given one, after at least one
step unless there is no code. -/
def Carries (rom : Rom) (m : Machine) (code : List (Statement Symbol)) (pc : UInt16) (ram : Ram) :
    Prop :=
  ∃ n ram', Lands rom m n pc ram' ∧ ram'.Agrees ram ∧ (0 < n ∨ wordCount code = 0)

/-- The address that a block leads to, when `back` is the address behind it. -/
def Command.exit (address : Symbol → UInt16) (scope : Scope) (back : UInt16) (ram : Ram) :
    Command → UInt16
  | goto name => address (scope.labelSymbol name)
  | ifGoto name => if ram.top = 0 then back else address (scope.labelSymbol name)
  | call name _ => address (.function name)
  | ret => ram.peek (ram.get .lcl - frameSize)
  | _ => back

/-- On memories that agree a block leads to one address. -/
theorem Command.exit_agrees {address : Symbol → UInt16} {scope : Scope} {back : UInt16} {r s : Ram}
    {c : Command} (h : r.Agrees s) (safe : ∀ cell ∈ c.cells r, 16 ≤ cell ∧ cell < 32768) :
    c.exit address scope back r = c.exit address scope back s := by
  cases c with
  | ifGoto name => rw [exit, exit, h.top (safe _ (List.mem_singleton.2 rfl)).1]
  | ret =>
    have saved : 16 ≤ r.get .lcl - frameSize := (safe _ (by simp [cells, frameSize])).1
    rw [exit, exit, h.peek saved, h.get (q := .lcl) (by decide)]
  | _ => rfl

/-- The address that a site's block leads to. -/
def Site.exit (address : Symbol → UInt16) (back : UInt16) (ram : Ram) (s : Site) : UInt16 :=
  match s.task with
  | .setStack _ => back
  | .command c => c.exit address s.scope back ram

theorem Site.exit_agrees {address : Symbol → UInt16} {back : UInt16} {r s : Ram} {site : Site}
    (h : r.Agrees s) (safe : ∀ cell ∈ site.cells r, 16 ≤ cell ∧ cell < 32768) :
    site.exit address back r = site.exit address back s := by
  obtain ⟨scope, note, task⟩ := site
  cases task with
  | setStack base => rfl
  | command c => exact Command.exit_agrees h safe

variable {rom : Rom} {address : Symbol → UInt16} {m : Machine} {l : Layout} {scope : Scope}

theorem carries_of_lands {n : Nat} {code : List (Statement Symbol)} {pc : UInt16} {ram ram' : Ram}
    (lands : Lands rom m (n + 1) pc ram') (agrees : ram'.Agrees ram) : Carries rom m code pc ram :=
  ⟨n + 1, ram', lands, agrees, .inl (Nat.succ_pos n)⟩

/-- The same for code that is counted. -/
theorem carries_of_wordCount {code : List (Statement Symbol)} {pc : UInt16} {ram ram' : Ram}
    (lands : Lands rom m (wordCount code) pc ram') (agrees : ram'.Agrees ram) :
    Carries rom m code pc ram :=
  ⟨wordCount code, ram', lands, agrees, (Nat.eq_zero_or_pos _).symm⟩

variable (regs : Code.RegistersAt address) (full : m.ram.Full)

include regs full

theorem Operator.carries {op : Operator} {number : Nat}
    (stands : Stands rom address m.pc (op.code number))
    (safe : ∀ cell ∈ (Command.operate op).cells m.ram, 16 ≤ cell ∧ cell < 32768) :
    Carries rom m (op.code number) (behind m.pc (op.code number)) (op.effect m.ram) := by
  have cells : ∀ cell ∈ (Command.operate op).cells m.ram, cell ≠ 0 ∧ cell < 32768 :=
    fun cell mem => ⟨(Ram.cell_ne (r := .sp) (safe cell mem).1).symm, (safe cell mem).2⟩
  obtain ⟨n, lands⟩ := Operator.lands regs full stands cells
  exact carries_of_lands lands (op.full_effect.2 full).agrees_self

namespace Command

theorem push_carries {segment : Segment} {index back : UInt16}
    (static : l.static scope.unit index = address (.static scope.unit index))
    (allowed : segment.Allows scope index)
    (bound : (Command.push segment index).StaticBound l scope.unit)
    (stands : Stands rom address m.pc ((Command.push segment index).code scope))
    (safe : ∀ cell ∈ (Command.push segment index).cells m.ram, 16 ≤ cell ∧ cell < 32768) :
    Carries rom m ((Command.push segment index).code scope)
      (behind m.pc ((Command.push segment index).code scope))
      ((Command.push segment index).effect l scope.unit back m.ram) := by
  have stack : 16 ≤ m.ram.get .sp ∧ m.ram.get .sp < 32768 := safe _ (List.mem_cons_self ..)
  have base : m.ram.get .sp ≠ 0 := by
    intro zero
    rw [zero] at stack
    exact absurd stack.1 (by decide)
  have there {cell : UInt16} (h : segment.cell? l scope.unit m.ram index = some cell) :
      cell < 32768 :=
    (Segment.cell_bound allowed (fun e => bound index (.inl (e ▸ rfl)))
      (fun cell mem => safe cell (List.mem_cons_of_mem _ mem)) h).1
  have lands := push_lands regs full static stands (fun _ => there) stack.2 base
  exact carries_of_wordCount lands (Ram.full_push.2 full).agrees_self

/-- The stack machine has no word waiting, so it leaves R13 alone. -/
theorem pop_carries {segment : Segment} {index back : UInt16}
    (static : l.static scope.unit index = address (.static scope.unit index))
    (allowed : (Command.pop segment index).Allowed scope)
    (bound : (Command.pop segment index).StaticBound l scope.unit)
    (stands : Stands rom address m.pc ((Command.pop segment index).code scope))
    (safe : ∀ cell ∈ (Command.pop segment index).cells m.ram, 16 ≤ cell ∧ cell < 32768) :
    Carries rom m ((Command.pop segment index).code scope)
      (behind m.pc ((Command.pop segment index).code scope))
      ((Command.pop segment index).effect l scope.unit back m.ram) := by
  have top : 16 ≤ m.ram.get .sp - 1 ∧ m.ram.get .sp - 1 < 32768 := safe _ (List.mem_cons_self ..)
  obtain ⟨cell, there⟩ : ∃ cell, segment.cell? l scope.unit m.ram index = some cell :=
    Segment.exists_cell allowed.1
  have inside : cell < 32768 :=
    (Segment.cell_bound allowed.2 (fun e => bound index (.inr (e ▸ rfl)))
      (fun cell mem => safe cell (List.mem_cons_of_mem _ mem)) there).1
  have lands := pop_lands regs full static stands there inside top.2
    (Ram.cell_ne (r := .sp) top.1).symm (Ram.cell_ne (r := .r13) top.1).symm
  have stored : segment.store l scope.unit m.ram.drop index m.ram.top =
      m.ram.drop.poke cell m.ram.top := by
    have same : segment.cell? l scope.unit m.ram.drop index = some cell :=
      (Segment.cell?_congr fun r h => Ram.get_drop (Segment.base?_ne h).1).trans there
    rw [Segment.store, same]
  refine carries_of_wordCount lands ?_
  rw [effect, stored]
  exact ((Segment.kept_agrees full).set .sp _).poke cell _

omit regs full in
/-- The cells of pushed words leave room for the pushes. -/
theorem room_of_safe {ram : Ram} {n : Nat}
    (safe : ∀ cell ∈ (List.range n).map fun i => ram.get .sp + i.toUInt16,
      16 ≤ cell ∧ cell < 32768) : Code.Room ram n := by
  intro i small
  obtain ⟨low, high⟩ := safe _ (List.mem_map_of_mem (List.mem_range.2 small))
  refine ⟨high, fun zero => ?_⟩
  rw [zero] at low
  exact absurd low (by decide)

omit regs in
/-- A label alone is no code. -/
theorem label_carries (a : Symbol) :
    Carries rom m [.label a] (behind m.pc [Statement.label a]) m.ram := by
  refine ⟨0, m.ram, ?_, full.agrees_self, .inr rfl⟩
  rw [Asm.behind_label, Asm.behind_nil]
  exact .refl rom m

theorem function_carries {name : String} {localCount back : UInt16}
    (allowed : (Command.function name localCount).Allowed scope)
    (stands : Stands rom address m.pc ((Command.function name localCount).code scope))
    (safe : ∀ cell ∈ (Command.function name localCount).cells m.ram, 16 ≤ cell ∧ cell < 32768) :
    Carries rom m ((Command.function name localCount).code scope)
      (behind m.pc ((Command.function name localCount).code scope))
      ((Command.function name localCount).effect l scope.unit back m.ram) := by
  by_cases none : localCount = 0
  · subst none
    exact label_carries full (.function name)
  · have code : (Command.function name localCount).code scope =
        .label (.function name) :: Code.clear localCount scope.labelCount := by
      rw [Command.code, if_neg none]
    rw [code] at stands ⊢
    have lands := (Code.clear_lands regs full stands.2 none allowed.2 (room_of_safe safe)).1
    rw [Nat.add_comm] at lands
    exact carries_of_lands lands (Ram.full_clear.2 full).agrees_self

theorem ret_carries {back : UInt16} (stands : Stands rom address m.pc Code.ret)
    (safe : ∀ cell ∈ Command.ret.cells m.ram, 16 ≤ cell ∧ cell < 32768) :
    Carries rom m Code.ret (Command.ret.exit address scope back m.ram)
      (Command.ret.effect l scope.unit back m.ram) := by
  have frame : ∀ i ∈ [1, 2, 3, 4, 5], 16 ≤ m.ram.get .lcl - i ∧ m.ram.get .lcl - i < 32768 :=
    fun i mem => safe _ (List.mem_append_right _ (List.mem_map_of_mem mem))
  have top : 16 ≤ m.ram.get .sp - 1 ∧ m.ram.get .sp - 1 < 32768 := safe _ (by simp [cells])
  have place : 16 ≤ m.ram.get .arg ∧ m.ram.get .arg < 32768 := safe _ (by simp [cells])
  obtain ⟨k, lands⟩ := Code.ret_lands regs full stands rfl (fun i mem => (frame i mem).2) place top
  have saved : (m.ram.set .r13 (m.ram.get .lcl)).peek (m.ram.get .lcl - frameSize) =
      m.ram.peek (m.ram.get .lcl - frameSize) :=
    Ram.peek_set (frame 5 (by decide)).1
  rw [saved] at lands
  refine carries_of_lands lands ?_
  have kept := (full.agrees_self.set_scratch (q := .r13) (w := m.ram.get .lcl) (.inl rfl)).set_scratch
    (q := .r14) (w := m.ram.peek (m.ram.get .lcl - frameSize)) (.inr rfl)
  apply kept.leave
  · rw [kept.get (by decide)]
    exact top.1
  · exact fun i mem => (frame i (List.mem_append_left [5] mem)).1

/-- The block of a command carries out the command. -/
theorem carries {c : Command} (static : ∀ index, l.static scope.unit index =
      address (.static scope.unit index)) (allowed : c.Allowed scope)
    (bound : c.StaticBound l scope.unit) (stands : Stands rom address m.pc (c.code scope))
    (safe : ∀ cell ∈ c.cells m.ram, 16 ≤ cell ∧ cell < 32768) :
    Carries rom m (c.code scope)
      (c.exit address scope (behind m.pc (c.code scope)) m.ram)
      (c.effect l scope.unit (behind m.pc (c.code scope)) m.ram) := by
  cases c with
  | operate op => exact Operator.carries regs full stands safe
  | push segment index => exact push_carries regs full (static index) allowed bound stands safe
  | pop segment index => exact pop_carries regs full (static index) allowed bound stands safe
  | label name => exact label_carries full (scope.labelSymbol name)
  | goto name => exact carries_of_lands (Code.goto_lands stands) full.agrees_self
  | ifGoto name =>
    have top : 16 ≤ m.ram.get .sp - 1 ∧ m.ram.get .sp - 1 < 32768 :=
      safe _ (List.mem_singleton.2 rfl)
    have lands := Code.ifGoto_lands regs full stands top.2
    have word : m.ram.drop.peek (m.ram.get .sp - 1) = m.ram.top := Ram.peek_set top.1
    rw [word, ite_not] at lands
    exact carries_of_lands lands (Ram.full_drop.2 full).agrees_self
  | function name localCount => exact function_carries regs full allowed stands safe
  | call name argCount =>
    obtain ⟨k, lands⟩ := Code.call_lands regs full stands (room_of_safe safe)
    exact carries_of_lands lands (Ram.full_enter.2 full).agrees_self
  | ret => exact ret_carries regs full stands safe

end Command

end Vm

end HackPlatform
