import HackPlatform.Vm.Block

/-!
# Output lines and where they go

A translated program is a list of lines: statements, and notes that repeat the commands they came
from. A sink takes lines one by one and may refuse. A page takes every line and keeps it as it is; a
tape takes the bytes of the text and may have room for a limited number of them.
-/

namespace HackPlatform.Vm

/-- A line of output: a note, written behind `// `, or a statement. -/
inductive Line
  | note (text : String)
  | code (s : Asm.Statement Symbol)
  deriving DecidableEq, Repr

/-- The text of a line, with the line feed that ends it. -/
def Line.text : Line → String
  | .note text => "// " ++ text ++ "\n"
  | .code s => (s.map Symbol.text).text ++ "\n"

/-- A place that lines are written to. One that has no room for a line takes as much of it as there
is room for and gives the reason; a flush completes the output. -/
class Sink (σ : Type) where
  put : σ → Line → σ × Except String Unit
  flush : σ → Except String Unit

/-- A sink that takes everything and remembers the lines. -/
structure Page where
  lines : Array Line
  deriving DecidableEq

namespace Page

/-- Nothing written. -/
def empty : Page :=
  ⟨#[]⟩

/-- The text of a page. -/
def text (p : Page) : String :=
  p.lines.foldl (fun text line => text ++ line.text) ""

instance : Sink Page where
  put p line := (⟨p.lines.push line⟩, .ok ())
  flush _ := .ok ()

end Page

/-- A sink of bytes, which may have room for only so many more and may fail when it is flushed. -/
structure Tape where
  bytes : ByteArray
  room : Option Nat
  failsFlush : Bool

namespace Tape

/-- An empty tape. -/
def blank (room : Option Nat) (failsFlush : Bool) : Tape :=
  ⟨.empty, room, failsFlush⟩

/-- Writes bytes as far as they fit. -/
def append : Tape → ByteArray → Tape × Except String Unit
  | ⟨bytes, none, failsFlush⟩, new => (⟨bytes ++ new, none, failsFlush⟩, .ok ())
  | ⟨bytes, some room, failsFlush⟩, new =>
    if new.size ≤ room then (⟨bytes ++ new, some (room - new.size), failsFlush⟩, .ok ())
    else (⟨bytes ++ new.extract 0 room, some 0, failsFlush⟩, .error "sink full")

instance : Sink Tape where
  put t line := t.append line.text.toUTF8
  flush t := if t.failsFlush then .error "flush failed" else .ok ()

end Tape

end HackPlatform.Vm
