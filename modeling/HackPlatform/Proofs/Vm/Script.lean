import HackPlatform.Proofs.Vm.Rejection
import HackPlatform.Proofs.Vm.Verdict

/-!
# Scripts of a writer

A writer is used by operations, one after the other, whether they succeed or not. On a sink that
takes every line it does what it does on a page, so its results and scopes do not depend on the sink.
Whatever a script did before, a command is refused exactly when it is invalid, and a refused command
leaves nothing behind but its note.
-/

namespace HackPlatform.Vm

namespace Sink

variable {σ : Type} [Sink σ]

/-- A sink after lines, whatever it answered to them. -/
def after (s : σ) (lines : List Line) : σ :=
  lines.foldl (fun s line => (put s line).1) s

/-- A sink that refuses no line, now and later. -/
def Takes (s : σ) : Prop :=
  ∀ lines line, (put (after s lines) line).2 = .ok ()

theorem after_append (s : σ) (lines more : List Line) :
    after s (lines ++ more) = after (after s lines) more :=
  List.foldl_append

theorem Takes.after {s : σ} (takes : Takes s) (lines : List Line) : Takes (Sink.after s lines) := by
  intro more line
  rw [← after_append]
  exact takes (lines ++ more) line

end Sink

/-- A tape without a limit takes every line. -/
theorem Tape.takes {t : Tape} (free : t.room = none) : Sink.Takes t := by
  have put (t : Tape) (free : t.room = none) (line : Line) :
      (Sink.put t line).2 = .ok () ∧ (Sink.put t line).1.room = none := by
    obtain ⟨bytes, room, failsFlush⟩ := t
    subst free
    exact ⟨rfl, rfl⟩
  intro lines line
  induction lines generalizing t with
  | nil => exact (put t free line).1
  | cons first lines ih => exact ih (put t free first).2

/-- One use of a writer. Notes are wanted from some operation on, or not; a command is written with
its note, or its block alone. -/
inductive Operation
  | setUnit (unit : String)
  | annotate (wanted : Bool)
  | write (c : Command)
  | block (c : Command)
  | bootstrap (stackBase : UInt16) (entry : String)
  deriving DecidableEq, Repr

namespace Writer

section

variable {σ : Type} [Sink σ]

/-- Performs an operation. -/
def apply (w : Writer σ) : Operation → Writer σ × Except EmitError Unit
  | .setUnit unit => (w.setUnit unit, .ok ())
  | .annotate wanted => ({ w with annotate := wanted }, .ok ())
  | .write c => w.write c
  | .block c => w.writeBlock c
  | .bootstrap stackBase entry => w.bootstrap stackBase entry

/-- Performs all operations, with the result of each. -/
def script (w : Writer σ) : List Operation → Writer σ × List (Except EmitError Unit)
  | [] => (w, [])
  | op :: rest =>
    let done := w.apply op
    let (w, results) := done.1.script rest
    (w, done.2 :: results)

/-- A line that the sink takes changes nothing else. -/
theorem put_of_taken {w : Writer σ} {line : Line} (taken : (Sink.put w.sink line).2 = .ok ()) :
    w.put line = ({ w with sink := (Sink.put w.sink line).1 }, .ok ()) := by
  obtain ⟨sink, scope, annotate⟩ := w
  rw [put]
  cases done : Sink.put sink line with
  | mk next result =>
    rw [done] at taken
    cases taken
    rfl

end

/-! ## Writing as on a page -/

section Mirrors

variable {σ ρ : Type} [Sink σ] {start : σ} {w : Writer σ} {p : Writer Page}

/-- From a state of its sink on, a writer wrote what another wrote on a page. -/
structure Mirrors (start : σ) (w : Writer σ) (p : Writer Page) : Prop where
  sink : w.sink = Sink.after start p.sink.lines.toList
  scope : w.scope = p.scope
  annotate : w.annotate = p.annotate

/-- Two writers answer the same, and wrote the same. -/
structure Follows (start : σ) (r : Writer σ × ρ) (q : Writer Page × ρ) : Prop where
  result : r.2 = q.2
  mirrors : Mirrors start r.1 q.1

/-- The writer with an empty page in place of its sink. -/
def onPage (w : Writer σ) : Writer Page :=
  ⟨Page.empty, w.scope, w.annotate⟩

theorem mirrors_onPage (w : Writer σ) : Mirrors w.sink w w.onPage :=
  ⟨rfl, rfl, rfl⟩

theorem Follows.andThen {r : Writer σ × Except EmitError Unit}
    {q : Writer Page × Except EmitError Unit} {f : Writer σ → Writer σ × Except EmitError Unit}
    {g : Writer Page → Writer Page × Except EmitError Unit} (h : Follows start r q)
    (next : ∀ w p, Mirrors start w p → Follows start (f w) (g p)) :
    Follows start (Writer.andThen r f) (Writer.andThen q g) := by
  obtain ⟨w, result⟩ := r
  obtain ⟨p, answer⟩ := q
  obtain rfl : result = answer := h.result
  cases result with
  | ok u => exact next w p h.mirrors
  | error e => exact ⟨rfl, h.mirrors⟩

section Takes

variable (takes : Sink.Takes start)

include takes

theorem Mirrors.put (h : Mirrors start w p) (line : Line) :
    Follows start (w.put line) (p.put line) := by
  obtain ⟨sink, scope, annotate⟩ := w
  obtain ⟨page, scope', annotate'⟩ := p
  obtain ⟨here, same, notes⟩ := h
  obtain rfl : sink = Sink.after start page.lines.toList := here
  obtain rfl : scope = scope' := same
  obtain rfl : annotate = annotate' := notes
  rw [put_of_taken (takes page.lines.toList line)]
  refine ⟨rfl, ?_, rfl, rfl⟩
  show _ = Sink.after start (page.lines.push line).toList
  rw [Array.toList_push, Sink.after_append]
  rfl

theorem Mirrors.perform (h : Mirrors start w p) (effects : List Effect) :
    Follows start (w.perform effects) (p.perform effects) := by
  induction effects generalizing w p with
  | nil => exact ⟨rfl, h⟩
  | cons e rest ih =>
    cases e with
    | emit s =>
      have first := h.put takes (.code s)
      exact first.andThen fun w p mirrors => ih mirrors
    | tick => exact ih ⟨h.sink, congrArg (Scope.after · .tick) h.scope, h.annotate⟩
    | enter f => exact ih ⟨h.sink, congrArg (Scope.after · (.enter f)) h.scope, h.annotate⟩

theorem Mirrors.writeBlock (h : Mirrors start w p) (c : Command) :
    Follows start (w.writeBlock c) (p.writeBlock c) := by
  rw [Writer.writeBlock, Writer.writeBlock, h.scope]
  cases c.block p.scope with
  | ok effects => exact h.perform takes effects
  | error r => exact ⟨rfl, h⟩

theorem Mirrors.note (h : Mirrors start w p) (text : String) :
    Follows start (w.note text) (p.note text) := by
  rw [Writer.note, Writer.note, h.annotate]
  split
  · exact h.put takes (.note text)
  · exact ⟨rfl, h⟩

theorem Mirrors.write (h : Mirrors start w p) (c : Command) :
    Follows start (w.write c) (p.write c) :=
  (h.note takes c.text).andThen fun _ _ mirrors => mirrors.writeBlock takes c

theorem Mirrors.bootstrap (h : Mirrors start w p) (stackBase : UInt16) (entry : String) :
    Follows start (w.bootstrap stackBase entry) (p.bootstrap stackBase entry) := by
  unfold Writer.bootstrap
  split
  · exact ⟨rfl, h⟩
  · apply (h.note takes "bootstrap").andThen
    intro w p mirrors
    apply (mirrors.perform takes (emitAll (Code.setStack stackBase))).andThen
    intro w p mirrors
    exact mirrors.writeBlock takes (.call entry 0)

/-- An operation does on a sink that takes every line what it does on a page. -/
theorem Mirrors.apply (h : Mirrors start w p) (op : Operation) :
    Follows start (w.apply op) (p.apply op) := by
  cases op with
  | setUnit unit =>
    refine ⟨rfl, h.sink, ?_, h.annotate⟩
    show Scope.mk unit none w.scope.labelCount = _
    rw [h.scope]
    rfl
  | annotate wanted => exact ⟨rfl, h.sink, h.scope, rfl⟩
  | write c => exact h.write takes c
  | block c => exact h.writeBlock takes c
  | bootstrap stackBase entry => exact h.bootstrap takes stackBase entry

theorem Mirrors.script (h : Mirrors start w p) (ops : List Operation) :
    Follows start (w.script ops) (p.script ops) := by
  induction ops generalizing w p with
  | nil => exact ⟨rfl, h⟩
  | cons op ops ih =>
    have first := h.apply takes op
    have rest := ih first.mirrors
    refine ⟨?_, rest.mirrors⟩
    show (w.apply op).2 :: _ = (p.apply op).2 :: _
    rw [first.result, rest.result]

end Takes

end Mirrors

section Reached

variable {p : Writer Page}

/-- Commands leave the writer in a function with a name of the source, if it was in one. -/
theorem writeBlock_sound (sound : p.scope.Sound) (c : Command) : (p.writeBlock c).1.scope.Sound := by
  unfold writeBlock
  cases block : c.block p.scope with
  | error r => exact sound
  | ok effects =>
    have accepted := block_accepted block
    obtain ⟨next, done, -, scope, -⟩ := perform_page p effects
    simp only [done]
    rw [scope, accepted.next]
    exact sound.next accepted.allowed

theorem apply_sound (sound : p.scope.Sound) (op : Operation) : (p.apply op).1.scope.Sound := by
  cases op with
  | setUnit unit => exact unitScope_sound unit _
  | annotate wanted => exact sound
  | block c => exact writeBlock_sound sound c
  | write c =>
    obtain ⟨noted, done, -, scope, -⟩ := note_page p c.text
    rw [apply, write, done]
    exact writeBlock_sound (scope ▸ sound) c
  | bootstrap stackBase entry =>
    rw [apply, bootstrap]
    split
    · exact sound
    · obtain ⟨noted, done, -, scope, -⟩ := note_page p "bootstrap"
      obtain ⟨set, done', -, scope', -⟩ := perform_page noted (emitAll (Code.setStack stackBase))
      rw [foldl_after_emitAll, scope] at scope'
      simp only [done, andThen, done']
      exact writeBlock_sound (scope' ▸ sound) _

theorem script_sound (sound : p.scope.Sound) (ops : List Operation) :
    (p.script ops).1.scope.Sound := by
  induction ops generalizing p with
  | nil => exact sound
  | cons op ops ih => exact ih (apply_sound sound op)

end Reached

section Refused

variable {σ : Type} [Sink σ]

/-- A command is refused exactly when it is invalid, with its note or without, and then has left
nothing but its note. What follows gets the same answers, leads to the same scope and writes the
same lines as if the command had not been there. -/
structure RefusesInvalid (w : Writer σ) (c : Command) : Prop where
  refused : (∃ r, (w.writeBlock c).2 = .error (.invalidOperand r)) ↔ c.Invalid w.scope
  accepted : (w.writeBlock c).2 = .ok () ↔ ¬c.Invalid w.scope
  answer : (w.write c).2 = (w.writeBlock c).2
  unchanged : c.Invalid w.scope → (w.writeBlock c).1 = w
  silent : c.Invalid w.scope → w.annotate = false → (w.write c).1 = w
  noted : c.Invalid w.scope → w.annotate = true →
    (w.write c).1 = { w with sink := (Sink.put w.sink (.note c.text)).1 }
  following : c.Invalid w.scope → ∀ ops : List Operation,
    ((w.write c).1.script ops).2 = (w.script ops).2 ∧
      ((w.write c).1.script ops).1.scope = (w.script ops).1.scope ∧
      ∃ lines, (w.script ops).1.sink = Sink.after w.sink lines ∧
        ((w.write c).1.script ops).1.sink = Sink.after (w.write c).1.sink lines

section Answers

variable {w : Writer σ} (takes : Sink.Takes w.sink)

include takes

theorem writeBlock_answer (c : Command) :
    (w.writeBlock c).2 = (verdict (c.block w.scope)).mapError .invalidOperand := by
  rw [((mirrors_onPage w).writeBlock takes c).result, writeBlock_snd]
  rfl

theorem write_answer (c : Command) : (w.write c).2 = (w.writeBlock c).2 := by
  obtain ⟨noted, done, -, scope, -⟩ := note_page w.onPage c.text
  have answer : (w.onPage.write c).2 = (noted.writeBlock c).2 := by
    rw [write, done]
    rfl
  rw [((mirrors_onPage w).write takes c).result, answer, writeBlock_answer takes, writeBlock_snd,
    scope]
  rfl

/-- The note is written, if notes are wanted. -/
theorem note_of_takes (text : String) :
    w.note text = (if w.annotate then { w with sink := (Sink.put w.sink (.note text)).1 } else w,
      .ok ()) := by
  unfold note
  split
  · exact put_of_taken (takes [] (.note text))
  · rfl

theorem write_of_refused {c : Command} {r : Rejection} (block : c.block w.scope = .error r) :
    (w.write c).1 =
      if w.annotate then { w with sink := (Sink.put w.sink (.note c.text)).1 } else w := by
  rw [write, note_of_takes takes, andThen]
  split
  · simp only [writeBlock, block]
  · simp only [writeBlock, block]

/-- Writers that differ in their sinks only do the same from there on. -/
theorem script_moved {v : Writer σ} (takes' : Sink.Takes v.sink) (scope : v.scope = w.scope)
    (annotate : v.annotate = w.annotate) (ops : List Operation) :
    (v.script ops).2 = (w.script ops).2 ∧ (v.script ops).1.scope = (w.script ops).1.scope ∧
      ∃ lines, (w.script ops).1.sink = Sink.after w.sink lines ∧
        (v.script ops).1.sink = Sink.after v.sink lines := by
  have first := (mirrors_onPage w).script takes ops
  have other : Mirrors v.sink v w.onPage := ⟨rfl, scope, annotate⟩
  have second := other.script takes' ops
  refine ⟨second.result.trans first.result.symm,
    second.mirrors.scope.trans first.mirrors.scope.symm, _, first.mirrors.sink, second.mirrors.sink⟩

theorem refusesInvalid_of_sound (sound : w.scope.Sound) (c : Command) : RefusesInvalid w c := by
  have answer := writeBlock_answer takes c
  have invalid := block_eq_error_iff (c := c) sound
  refine ⟨?_, ?_, write_answer takes c, ?_, ?_, ?_, ?_⟩
  · rw [answer, ← invalid]
    cases c.block w.scope <;> simp [verdict, Except.map, Except.mapError]
  · rw [answer, ← invalid]
    cases c.block w.scope <;> simp [verdict, Except.map, Except.mapError]
  · intro wrong
    obtain ⟨r, block⟩ := invalid.2 wrong
    rw [writeBlock, block]
  · intro wrong off
    obtain ⟨r, block⟩ := invalid.2 wrong
    rw [write_of_refused takes block, off]
    rfl
  · intro wrong on
    obtain ⟨r, block⟩ := invalid.2 wrong
    rw [write_of_refused takes block, on]
    rfl
  · intro wrong ops
    obtain ⟨r, block⟩ := invalid.2 wrong
    rw [write_of_refused takes block]
    split
    · let noted := { w with sink := (Sink.put w.sink (.note c.text)).1 }
      have takes' : Sink.Takes noted.sink := takes.after [.note c.text]
      exact script_moved takes takes' rfl rfl ops
    · exact script_moved takes takes rfl rfl ops

end Answers

/-- Whatever a writer was used for on a sink that takes every line, it refuses the invalid commands
and no others, and a refusal changes nothing. -/
theorem script_refusesInvalid {sink : σ} (takes : Sink.Takes sink) (annotate : Bool)
    (ops : List Operation) (c : Command) :
    RefusesInvalid ((Writer.new sink annotate).script ops).1 c := by
  have start : (Writer.new sink annotate).onPage.scope.Sound := unitScope_sound "" 0
  have mirrors := (mirrors_onPage (Writer.new sink annotate)).script takes ops
  apply refusesInvalid_of_sound
  · rw [mirrors.mirrors.sink]
    exact takes.after _
  · rw [mirrors.mirrors.scope]
    exact script_sound start ops

end Refused

/-- No label outside functions has a name in a unit with a blank in its own. -/
theorem script_refusesInvalid_blank :
    ∃ w : Writer Tape, w = ((Writer.new (Tape.blank none false) true).script
        [.setUnit "my unit", .block (.push .static 3)]).1 ∧
      RefusesInvalid w (.label "LOOP") ∧ Command.Invalid w.scope (.label "LOOP") ∧
      (w.write (.label "LOOP")).1.sink.bytes = "// label LOOP\n".toUTF8 := by
  refine ⟨_, rfl, ?_⟩
  have refuses := script_refusesInvalid (Tape.takes (t := Tape.blank none false) rfl) true
    [.setUnit "my unit", .block (.push .static 3)] (.label "LOOP")
  generalize done : ((Writer.new (Tape.blank none false) true).script
    [.setUnit "my unit", .block (.push .static 3)]).1 = w at refuses ⊢
  have scope : w.scope = ⟨"my unit", none, 0⟩ := by
    rw [← done]
    decide +kernel
  have invalid : Command.Invalid w.scope (.label "LOOP") := by
    rw [scope]
    refine .inr ⟨rfl, ?_⟩
    rw [← Asm.isName_iff_nameText]
    decide +kernel
  refine ⟨refuses, invalid, ?_⟩
  have on : w.annotate = true := by
    rw [← done]
    decide +kernel
  rw [refuses.noted invalid on, ← done]
  decide +kernel

end Writer

end HackPlatform.Vm
