import HackPlatform.Text.Line
import HackPlatform.Vm.Command.Grammar

/-!
# Source units

A unit is a named source text. Its lines are cleaned once, lines without code are dropped and the
rest keep their numbers; commands are read when a cursor passes them. The cursor can be moved, so
commands can be read again.
-/

namespace HackPlatform.Vm

/-- A line with code: its number in the source text and what is left without comment and without
blanks at its ends. -/
structure SourceLine where
  number : Nat
  text : String
  deriving DecidableEq, Repr

/-- The lines of a source text that hold code. -/
def sourceLines (source : String) : List SourceLine :=
  ((Text.numberedLines source.toList).map fun l =>
      (l.1, Text.trim (Text.beforeComment l.2))).filterMap fun l =>
    if l.2.isEmpty then none else some ⟨l.1, String.ofList l.2⟩

/-- A unit's lines and the index of the next one to hand out. -/
structure Cursor where
  unit : String
  lines : Array SourceLine
  next : Nat
  deriving DecidableEq, Repr

namespace Cursor

/-- A cursor before the first line of a source text. -/
def ofSource (unit source : String) : Cursor :=
  ⟨unit, (sourceLines source).toArray, 0⟩

/-- The number of lines. -/
def size (c : Cursor) : Nat :=
  c.lines.size

/-- Whether a line is left. -/
def hasMore (c : Cursor) : Bool :=
  c.next < c.size

/-- The cursor before the line with the given index, or behind the last line. -/
def seek (c : Cursor) (index : Nat) : Cursor :=
  { c with next := min index c.size }

/-- The cursor before the first line. -/
def reset (c : Cursor) : Cursor :=
  c.seek 0

/-- The line handed out last, the one before the cursor. -/
def currentLine? (c : Cursor) : Option SourceLine :=
  if c.next = 0 then none else c.lines[c.next - 1]?

/-- The lines still to be handed out. -/
def rest (c : Cursor) : List SourceLine :=
  c.lines.toList.drop c.next

/-- Reads the next line. The cursor passes it even when it is no command. -/
def advance (c : Cursor) : Option (SourceLine × Except ParseError Command) × Cursor :=
  match c.lines[c.next]? with
  | none => (none, c)
  | some line => (some (line, Command.parse line.text), { c with next := c.next + 1 })

theorem rest_seek (c : Cursor) (index : Nat) :
    (c.seek index).rest = c.lines.toList.drop index := by
  simp only [rest, seek, size]
  rcases Nat.le_total index c.lines.size with h | h
  · rw [Nat.min_eq_left h]
  · rw [Nat.min_eq_right h, List.drop_of_length_le (by simp), List.drop_of_length_le (by simpa)]

/-- What the cursor hands out is the first of the lines that are left. -/
theorem advance_fst (c : Cursor) :
    c.advance.1 = c.rest.head?.map fun line => (line, Command.parse line.text) := by
  rw [rest, List.head?_drop, Array.getElem?_toList, advance]
  split <;> simp_all

theorem rest_advance (c : Cursor) : c.advance.2.rest = c.rest.tail := by
  unfold advance
  split
  · next h =>
    rw [Array.getElem?_eq_none_iff] at h
    rw [rest, List.drop_of_length_le (by simpa), List.tail_nil]
  · simp [rest]

end Cursor

end HackPlatform.Vm
