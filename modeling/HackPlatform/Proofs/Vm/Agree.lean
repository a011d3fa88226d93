import HackPlatform.Proofs.Vm.FrameMemory
import HackPlatform.Proofs.Vm.StackMachine

/-!
# Memories that agree

Blocks keep addresses in R13 and R14, which no command reads. Two memories agree when they differ
at most there, and every operation of the stack machine keeps agreement as long as the cells it
reads lie above the fixed ones.
-/

namespace HackPlatform.Ram

open Vm (Register)

/-- Full memories with the same words, but for the scratch registers. -/
structure Agrees (r s : Ram) : Prop where
  left : r.Full
  right : s.Full
  same : ∀ addr, addr ≠ Register.r13.cell → addr ≠ Register.r14.cell → r.peek addr = s.peek addr

theorem Full.agrees_self {r : Ram} (full : r.Full) : r.Agrees r :=
  ⟨full, full, fun _ _ _ => rfl⟩

/-- All cells of a memory with one cell replaced. -/
theorem Full.peek_poke_eq {r : Ram} (full : r.Full) (addr other w : UInt16) :
    (r.poke addr w).peek other = if other = addr ∧ addr < 32768 then w else r.peek other := by
  by_cases same : other = addr
  · subst same
    by_cases bound : other < 32768
    · rw [if_pos ⟨rfl, bound⟩]
      exact full.peek_poke bound
    · have outside : r.words.size ≤ other.toNat := by
        have size : r.words.size = 32768 := full
        have high := UInt16.le_iff_toNat_le.1 (UInt16.not_lt.1 bound)
        rw [size]
        exact high
      rw [if_neg fun h => bound h.2, poke, Array.setIfInBounds_eq_of_size_le outside]
  · rw [if_neg fun h => same h.1]
    exact peek_poke_of_ne r w same

namespace Agrees

variable {r s t : Ram} {addr w : UInt16} {q : Register}

theorem trans (h : r.Agrees s) (h' : s.Agrees t) : r.Agrees t :=
  ⟨h.left, h'.right, fun addr a b => (h.same addr a b).trans (h'.same addr a b)⟩

theorem peek (h : r.Agrees s) (high : 16 ≤ addr) : r.peek addr = s.peek addr :=
  h.same addr (cell_ne high).symm (cell_ne high).symm

theorem get (h : r.Agrees s) (scratch : q ≠ .r13 ∧ q ≠ .r14) : r.get q = s.get q :=
  h.same q.cell (fun e => scratch.1 (Register.cell_injective e))
    fun e => scratch.2 (Register.cell_injective e)

theorem top (h : r.Agrees s) (high : 16 ≤ r.get .sp - 1) : r.top = s.top := by
  rw [Ram.top, Ram.top, h.peek high, h.get (by decide)]

theorem poke (h : r.Agrees s) (addr w : UInt16) : (r.poke addr w).Agrees (s.poke addr w) := by
  refine ⟨full_poke.2 h.left, full_poke.2 h.right, fun other a b => ?_⟩
  rw [h.left.peek_poke_eq, h.right.peek_poke_eq, h.same other a b]

theorem set (h : r.Agrees s) (q : Register) (w : UInt16) : (r.set q w).Agrees (s.set q w) :=
  h.poke q.cell w

/-- A scratch register may be set on one side only. -/
theorem set_scratch (h : r.Agrees s) (scratch : q = .r13 ∨ q = .r14) : (r.set q w).Agrees s := by
  refine ⟨full_set.2 h.left, h.right, fun other a b => ?_⟩
  have apart : other ≠ q.cell := by
    rcases scratch with rfl | rfl
    · exact a
    · exact b
  rw [Ram.set, peek_poke_of_ne r w apart]
  exact h.same other a b

theorem push (h : r.Agrees s) (w : UInt16) : (r.push w).Agrees (s.push w) := by
  rw [Ram.push, Ram.push, h.get (by decide)]
  exact (h.poke _ w).set .sp _

theorem drop (h : r.Agrees s) : r.drop.Agrees s.drop := by
  rw [Ram.drop, Ram.drop, h.get (by decide)]
  exact h.set .sp _

theorem save (h : r.Agrees s) (scratch : q ≠ .r13 ∧ q ≠ .r14) : (r.save q).Agrees (s.save q) := by
  rw [Ram.save, Ram.save, h.get scratch]
  exact h.push _

theorem clear (h : r.Agrees s) (n : Nat) : (r.clear n).Agrees (s.clear n) := by
  induction n generalizing r s with
  | zero => exact h
  | succ n ih => exact ih (h.push 0)

theorem enter (h : r.Agrees s) (back offset : UInt16) :
    (r.enter back offset).Agrees (s.enter back offset) := by
  have saved := ((((h.push back).save (q := .lcl) (by decide)).save (q := .arg) (by decide)).save
    (q := .this) (by decide)).save (q := .that) (by decide)
  have framed := saved.set .arg
    (((((r.push back).save .lcl).save .arg).save .this |>.save .that).get .sp - offset)
  rw [Ram.enter, Ram.enter]
  rw [← saved.get (by decide), ← framed.get (by decide)]
  exact framed.set .lcl _

theorem restore {frame distance : UInt16} (h : r.Agrees s) (high : 16 ≤ frame - distance)
    (q : Register) : (r.restore frame q distance).Agrees (s.restore frame q distance) := by
  rw [Ram.restore, Ram.restore, h.peek high]
  exact h.set q _

theorem leave {frame : UInt16} (h : r.Agrees s) (high : 16 ≤ r.get .sp - 1)
    (cells : ∀ i ∈ [1, 2, 3, 4], 16 ≤ frame - i) : (r.leave frame).Agrees (s.leave frame) := by
  have handed := h.drop.poke (r.get .arg) r.top
  have cut := handed.set .sp ((r.drop.poke (r.get .arg) r.top).get .arg + 1)
  rw [Ram.leave, Ram.leave, ← h.top high, ← h.get (q := .arg) (by decide),
    ← handed.get (q := .arg) (by decide)]
  exact (((cut.restore (cells 1 (by decide)) .that).restore (cells 2 (by decide)) .this).restore
    (cells 3 (by decide)) .arg).restore (cells 4 (by decide)) .lcl

theorem unary (h : r.Agrees s) (high : 16 ≤ r.get .sp - 1) (f : UInt16 → UInt16) :
    (r.unary f).Agrees (s.unary f) := by
  rw [Ram.unary, Ram.unary, h.top high]
  exact h.drop.push _

theorem binary (h : r.Agrees s) (high : 16 ≤ r.get .sp - 1) (below : 16 ≤ r.get .sp - 2)
    (f : UInt16 → UInt16 → UInt16) : (r.binary f).Agrees (s.binary f) := by
  have under : 16 ≤ r.drop.get .sp - 1 := by
    rw [h.left.get_sp_drop]
    grind
  rw [Ram.binary, Ram.binary, h.top high, h.drop.top under]
  exact h.drop.drop.push _

end Agrees

end HackPlatform.Ram

namespace HackPlatform.Vm

/-! ## Commands on memories that agree -/

/-- A command that uses a static cell has one above the fixed cells and on the bus. -/
def Command.StaticBound (l : Layout) (unit : String) (c : Command) : Prop :=
  ∀ index, c = .push .static index ∨ c = .pop .static index →
    16 ≤ l.static unit index ∧ l.static unit index < 32768

variable {l : Layout} {scope : Scope} {index back : UInt16} {r s : Ram}

namespace Segment

variable {segment : Segment}

/-- The cell of an index is on the bus, and is no scratch register. -/
theorem cell_bound (allowed : segment.Allows scope index)
    (static : segment = .static → 16 ≤ l.static scope.unit index ∧ l.static scope.unit index < 32768)
    (moving : ∀ cell ∈ segment.movingCell r index, 16 ≤ cell ∧ cell < 32768) {cell : UInt16}
    (h : segment.cell? l scope.unit r index = some cell) :
    cell < 32768 ∧ cell ≠ Register.r13.cell ∧ cell ≠ Register.r14.cell := by
  have above (bound : 16 ≤ cell ∧ cell < 32768) :
      cell < 32768 ∧ cell ≠ Register.r13.cell ∧ cell ≠ Register.r14.cell :=
    ⟨bound.2, (Ram.cell_ne bound.1).symm, (Ram.cell_ne bound.1).symm⟩
  cases segment with
  | constant => cases h
  | locals | argument | this | that =>
    cases h
    apply above
    exact moving _ (List.mem_singleton.2 rfl)
  | static =>
    cases h
    apply above
    exact static rfl
  | temp =>
    cases h
    have small : index ≤ 7 := allowed
    have high : Register.r13.cell = 13 ∧ Register.r14.cell = 14 := ⟨rfl, rfl⟩
    grind
  | pointer =>
    cases h
    by_cases first : index = 0
    · rw [if_pos first]
      decide
    · rw [if_neg first]
      decide

theorem cell?_agrees (h : r.Agrees s) (unit : String) :
    segment.cell? l unit r index = segment.cell? l unit s index := by
  cases segment with
  | locals | argument | this | that => rw [cell?, cell?, h.get (by decide)]
  | _ => rfl

theorem movingCell_agrees (h : r.Agrees s) :
    segment.movingCell r index = segment.movingCell s index := by
  cases segment with
  | locals | argument | this | that => simp [movingCell, base?, h.get]
  | _ => rfl

theorem load_agrees (h : r.Agrees s) (unit : String)
    (plain : ∀ cell, segment.cell? l unit r index = some cell →
      cell ≠ Register.r13.cell ∧ cell ≠ Register.r14.cell) :
    segment.load l unit r index = segment.load l unit s index := by
  rw [load, load, ← cell?_agrees h]
  cases there : segment.cell? l unit r index with
  | none => rfl
  | some cell => exact h.same cell (plain cell there).1 (plain cell there).2

theorem store_agrees (h : r.Agrees s) (unit : String) (w : UInt16) :
    (segment.store l unit r index w).Agrees (segment.store l unit s index w) := by
  rw [store, store, ← cell?_agrees h]
  cases segment.cell? l unit r index with
  | none => exact h
  | some cell => exact h.poke cell w

end Segment

theorem Operator.effect_agrees {op : Operator} (h : r.Agrees s)
    (safe : ∀ cell ∈ (Command.operate op).cells r, 16 ≤ cell ∧ cell < 32768) :
    (op.effect r).Agrees (op.effect s) := by
  have high : 16 ≤ r.get .sp - 1 := by
    apply And.left
    apply safe
    cases op <;> simp [Command.cells, arity]
  cases op with
  | neg | not =>
    rw [effect, effect]
    exact h.unary high _
  | _ =>
    have below : 16 ≤ r.get .sp - 2 := by
      apply And.left
      apply safe
      simp [Command.cells, arity]
    rw [effect, effect]
    exact h.binary high below _

namespace Command

variable {c : Command}

theorem cells_agree (h : r.Agrees s) : c.cells r = c.cells s := by
  have sp := h.get (q := .sp) (by decide)
  cases c with
  | push segment index | pop segment index => rw [cells, cells, sp, Segment.movingCell_agrees h]
  | ret => rw [cells, cells, sp, h.get (q := .arg) (by decide), h.get (q := .lcl) (by decide)]
  | label name | goto name => rfl
  | _ => rw [cells, cells, sp]

/-- A command makes of memories that agree memories that agree. -/
theorem effect_agrees (h : r.Agrees s) (allowed : c.Allowed scope)
    (static : c.StaticBound l scope.unit)
    (safe : ∀ cell ∈ c.cells r, 16 ≤ cell ∧ cell < 32768) :
    (c.effect l scope.unit back r).Agrees (c.effect l scope.unit back s) := by
  cases c with
  | operate op => exact Operator.effect_agrees h safe
  | push segment index =>
    have plain : ∀ cell, segment.cell? l scope.unit r index = some cell →
        cell ≠ Register.r13.cell ∧ cell ≠ Register.r14.cell := fun cell there =>
      (Segment.cell_bound allowed (fun e => static index (.inl (e ▸ rfl)))
        (fun cell mem => safe cell (List.mem_cons_of_mem _ mem)) there).2
    rw [effect, effect, Segment.load_agrees h _ plain]
    exact h.push _
  | pop segment index =>
    rw [effect, effect, h.top (safe _ (List.mem_cons_self ..)).1]
    exact Segment.store_agrees h.drop _ _
  | label name | goto name => exact h
  | ifGoto name => exact h.drop
  | function name localCount => exact h.clear _
  | call name argCount => exact h.enter _ _
  | ret =>
    rw [effect, effect, ← h.get (q := .lcl) (by decide)]
    refine h.leave (safe _ (by simp [cells])).1 fun i mem => (safe _ ?_).1
    apply List.mem_append_right
    exact List.mem_map_of_mem (List.mem_append_left [5] mem)

end Command

namespace Site

theorem cells_agree {site : Site} (h : r.Agrees s) : site.cells r = site.cells s := by
  obtain ⟨scope, note, task⟩ := site
  cases task with
  | setStack base => rfl
  | command c => exact Command.cells_agree h

/-- A block that is accepted makes of memories that agree memories that agree. -/
theorem effect_agrees {site : Site} (h : r.Agrees s) (allowed : site.Allowed)
    (static : ∀ c, site.task = .command c → c.StaticBound l site.scope.unit)
    (safe : ∀ cell ∈ site.cells r, 16 ≤ cell ∧ cell < 32768) :
    (site.effect l back r).Agrees (site.effect l back s) := by
  obtain ⟨scope, note, task⟩ := site
  cases task with
  | setStack base => exact h.set .sp base
  | command c => exact Command.effect_agrees h allowed (static c rfl) safe

end Site

end HackPlatform.Vm
