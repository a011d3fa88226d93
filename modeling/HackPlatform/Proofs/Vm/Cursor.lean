import HackPlatform.Vm.Source

/-!
# Cursors

A cursor keeps its unit and its lines when it is moved, so what it hands out are lines of its source
from some place on, each with what it reads as.
-/

namespace HackPlatform.Vm.Cursor

/-- One move of a cursor. -/
inductive Move
  | seek (index : Nat)
  | reset
  | advance
  deriving DecidableEq, Repr

/-- Moves a cursor; what is read on the way is dropped. -/
def move (c : Cursor) : Move → Cursor
  | .seek index => c.seek index
  | .reset => c.reset
  | .advance => c.advance.2

theorem move_keeps (c : Cursor) (m : Move) :
    (c.move m).unit = c.unit ∧ (c.move m).lines = c.lines := by
  cases m with
  | advance =>
    rw [move, Cursor.advance]
    split <;> exact ⟨rfl, rfl⟩
  | _ => exact ⟨rfl, rfl⟩

/-- A moved cursor has the unit and the lines that it had. -/
theorem moved (moves : List Move) (c : Cursor) :
    (moves.foldl move c).unit = c.unit ∧ (moves.foldl move c).lines = c.lines := by
  induction moves generalizing c with
  | nil => exact ⟨rfl, rfl⟩
  | cons m moves ih =>
    obtain ⟨unit, lines⟩ := ih (c.move m)
    obtain ⟨unit', lines'⟩ := c.move_keeps m
    exact ⟨unit.trans unit', lines.trans lines'⟩

/-- Lines that a cursor still has to hand out are the last ones of its source. -/
theorem rest_suffix (moves : List Move) (unit source : String) :
    (moves.foldl move (ofSource unit source)).rest <:+ sourceLines source := by
  rw [rest, (moved moves _).2]
  exact List.drop_suffix _ _

/-! ## Lines that are handed out -/

/-- When a line was handed out, fewer are left, and it is the line in front of the cursor. -/
theorem advance_some {c next : Cursor} {line : SourceLine} {reading : Except ParseError Command}
    (h : c.advance = (some (line, reading), next)) :
    c.rest = line :: next.rest ∧ reading = Command.parse line.text ∧ next.unit = c.unit ∧
      next.currentLine? = some line := by
  rw [advance] at h
  split at h
  · cases h
  · next there =>
    cases h
    refine ⟨?_, rfl, rfl, ?_⟩
    · rw [rest, List.drop_eq_getElem?_toList_append, Array.getElem?_toList, there]
      rfl
    · rw [currentLine?, if_neg (Nat.succ_ne_zero _)]
      exact there

theorem advance_none {c next : Cursor} (h : c.advance = (none, next)) : c.rest = [] := by
  have first := c.advance_fst
  rw [h] at first
  exact List.head?_eq_none_iff.1 (Option.map_eq_none_iff.1 first.symm)

/-- What a cursor hands out when it is advanced a number of times. -/
def handOut : Nat → Cursor → List (SourceLine × Except ParseError Command)
  | 0, _ => []
  | n + 1, c =>
    match c.advance with
    | (some reading, c) => reading :: handOut n c
    | (none, _) => []

/-- A cursor hands out the lines that are left, with what they read as. -/
theorem handOut_eq (n : Nat) (c : Cursor) :
    handOut n c = (c.rest.take n).map fun line => (line, Command.parse line.text) := by
  induction n generalizing c with
  | zero => rfl
  | succ n ih =>
    rw [handOut]
    split
    · next reading next there =>
      obtain ⟨line, parsed⟩ := reading
      obtain ⟨left, rfl, -, -⟩ := advance_some there
      rw [left, List.take_succ_cons, List.map_cons, ih]
    · next there =>
      rw [advance_none there]
      rfl

end HackPlatform.Vm.Cursor
