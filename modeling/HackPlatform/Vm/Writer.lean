import HackPlatform.Vm.Sink

/-!
# The writer

A writer turns commands into lines on a sink and keeps the scope between them. A command that is
rejected has no effect, except that its note is already written. When the sink refuses, the writer
stops in the middle of the block and keeps the effects up to there.
-/

namespace HackPlatform.Vm

/-- Why a command was not written. -/
inductive EmitError
  | invalidOperand (r : Rejection)
  | io (cause : String)
  deriving DecidableEq, Repr

/-- The message of an error. -/
def EmitError.message : EmitError → String
  | .invalidOperand r => s!"invalid operand `{r.operand}`: {r.reason.message}"
  | .io cause => s!"write failed: {cause}"

/-- A sink with what the next block depends on, and whether a note goes before each block. -/
structure Writer (σ : Type) where
  sink : σ
  scope : Scope
  annotate : Bool

namespace Writer

variable {σ : Type} [Sink σ]

/-- A writer that has written nothing. -/
def new (sink : σ) (annotate : Bool) : Writer σ :=
  ⟨sink, ⟨"", none, 0⟩, annotate⟩

/-- Starts a unit. The function of the previous unit ends with it. -/
def setUnit (w : Writer σ) (unit : String) : Writer σ :=
  { w with scope := ⟨unit, none, w.scope.labelCount⟩ }

/-- Writes one line. -/
def put : Writer σ → Line → Writer σ × Except EmitError Unit
  | ⟨sink, scope, annotate⟩, line =>
    match Sink.put sink line with
    | (sink, .ok ()) => (⟨sink, scope, annotate⟩, .ok ())
    | (sink, .error cause) => (⟨sink, scope, annotate⟩, .error (.io cause))

/-- Goes on with `next` unless there was an error. -/
def andThen (r : Writer σ × Except EmitError Unit)
    (next : Writer σ → Writer σ × Except EmitError Unit) : Writer σ × Except EmitError Unit :=
  match r with
  | (w, .ok ()) => next w
  | (w, .error e) => (w, .error e)

/-- Performs effects in order, up to the first that the sink refuses. -/
def perform (w : Writer σ) : List Effect → Writer σ × Except EmitError Unit
  | [] => (w, .ok ())
  | .emit s :: rest =>
    match w.put (.code s) with
    | (w, .ok ()) => w.perform rest
    | (w, .error e) => (w, .error e)
  | e :: rest => perform { w with scope := w.scope.after e } rest

/-- Writes the block of a command. -/
def writeBlock (w : Writer σ) (c : Command) : Writer σ × Except EmitError Unit :=
  match c.block w.scope with
  | .ok effects => w.perform effects
  | .error r => (w, .error (.invalidOperand r))

/-- Writes a note, if notes are wanted. -/
def note (w : Writer σ) (text : String) : Writer σ × Except EmitError Unit :=
  if w.annotate then w.put (.note text) else (w, .ok ())

/-- Writes a command: its note and its block. -/
def write (w : Writer σ) (c : Command) : Writer σ × Except EmitError Unit :=
  andThen (w.note c.text) fun w => w.writeBlock c

/-- Writes the start of a program: the stack pointer is set and the entry function called. -/
def bootstrap (w : Writer σ) (stackBase : UInt16) (entry : String) :
    Writer σ × Except EmitError Unit :=
  if stackBase > maxAddress then
    (w, .error (.invalidOperand ⟨Text.decimal stackBase, .stackBase⟩))
  else
    andThen (w.note "bootstrap") fun w =>
      andThen (w.perform (emitAll (Code.setStack stackBase))) fun w =>
        w.writeBlock (.call entry 0)

/-- Completes the output and hands back the sink. -/
def finish (w : Writer σ) : Except EmitError σ :=
  match Sink.flush w.sink with
  | .ok () => .ok w.sink
  | .error cause => .error (.io cause)

end Writer

end HackPlatform.Vm
