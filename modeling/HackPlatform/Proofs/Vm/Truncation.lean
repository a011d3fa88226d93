import HackPlatform.Proofs.Vm.Script

/-!
# Scripts on a full tape

A tape with room for a number of bytes holds the first bytes of what the same script writes to a
tape without a limit. Two writers run side by side, and they agree until a line does not fit. That
line is cut, the operation that wrote it fails, and whatever the writer does from there on the tape
stays as it is, while the tape without a limit only grows.
-/

namespace HackPlatform.Vm

open Writer (andThen)

namespace Tape

variable {a b : ByteArray} {n : Nat}

/-- The first bytes of a text that has no more are all of it. -/
theorem extract_of_size_le (h : a.size ≤ n) : a.extract 0 n = a := by
  conv => lhs; rw [← @ByteArray.extract_zero_size a, ByteArray.extract_extract, Nat.zero_add,
    Nat.zero_add, Nat.min_eq_right h, ByteArray.extract_zero_size]

/-- What is appended counts where the text before it is short. -/
theorem extract_append_of_size_le (h : a.size ≤ n) :
    (a ++ b).extract 0 n = a ++ b.extract 0 (n - a.size) := by
  rw [ByteArray.extract_append, extract_of_size_le h, Nat.zero_sub]

/-- It does not count where that is long enough. -/
theorem extract_append_of_le_size (h : n ≤ a.size) : (a ++ b).extract 0 n = a.extract 0 n := by
  rw [ByteArray.extract_append, Nat.sub_eq_zero_of_le h, Nat.zero_sub, ByteArray.extract_same,
    ByteArray.append_empty]

variable {t : Tape}

/-- A full tape stays as it is. -/
theorem after_full (full : t.room = some 0) (lines : List Line) : Sink.after t lines = t := by
  have same (line : Line) : (Sink.put t line).1 = t := by
    obtain ⟨bytes, room, failsFlush⟩ := t
    subst full
    show (append ⟨bytes, some 0, failsFlush⟩ line.text.toUTF8).1 = _
    rw [append]
    split
    · next empty =>
      rw [ByteArray.size_eq_zero_iff.1 (Nat.le_zero.1 empty), ByteArray.append_empty]
      rfl
    · rw [ByteArray.extract_same, ByteArray.append_empty]
  induction lines with
  | nil => rfl
  | cons line lines ih =>
    show Sink.after (Sink.put t line).1 lines = t
    rw [same, ih]

/-- A tape without a limit keeps what it holds. -/
theorem after_free (free : t.room = none) (lines : List Line) :
    (Sink.after t lines).room = none ∧ ∃ more, (Sink.after t lines).bytes = t.bytes ++ more := by
  induction lines generalizing t with
  | nil => exact ⟨free, .empty, ByteArray.append_empty.symm⟩
  | cons line lines ih =>
    obtain ⟨bytes, room, failsFlush⟩ := t
    obtain rfl : room = none := free
    obtain ⟨still, more, longer⟩ :=
      @ih (append ⟨bytes, none, failsFlush⟩ line.text.toUTF8).1 rfl
    exact ⟨still, line.text.toUTF8 ++ more, longer.trans ByteArray.append_assoc⟩

end Tape

namespace Writer

section Lines

variable {σ ρ : Type} [Sink σ]

/-- What happened to the sink is that lines were put on it. -/
def Puts (w : Writer σ) (r : Writer σ × ρ) : Prop :=
  ∃ lines, r.1.sink = Sink.after w.sink lines

theorem puts_self {w v : Writer σ} (same : v.sink = w.sink) (result : ρ) : Puts w (v, result) :=
  ⟨[], same⟩

theorem Puts.trans {τ : Type} {w : Writer σ} {r : Writer σ × ρ} {s : Writer σ × τ} (h : Puts w r)
    (next : Puts r.1 s) : Puts w s := by
  obtain ⟨lines, first⟩ := h
  obtain ⟨more, second⟩ := next
  exact ⟨lines ++ more, by rw [second, first, Sink.after_append]⟩

theorem Puts.andThen {w : Writer σ} {r : Writer σ × Except EmitError Unit}
    {f : Writer σ → Writer σ × Except EmitError Unit} (h : Puts w r)
    (next : ∀ v, Puts v (f v)) : Puts w (andThen r f) := by
  obtain ⟨v, _ | u⟩ := r
  · exact h
  · exact h.trans (next v)

variable (w : Writer σ)

theorem puts_put (line : Line) : Puts w (w.put line) := by
  refine ⟨[line], ?_⟩
  obtain ⟨sink, scope, annotate⟩ := w
  rw [put]
  cases done : Sink.put sink line with
  | mk next result => cases result <;> exact congrArg Prod.fst done.symm

theorem puts_perform (effects : List Effect) : Puts w (w.perform effects) := by
  induction effects generalizing w with
  | nil => exact puts_self rfl _
  | cons e rest ih =>
    cases e with
    | emit s => exact (puts_put w (.code s)).andThen ih
    | tick => exact ih _
    | enter f => exact ih _

theorem puts_writeBlock (c : Command) : Puts w (w.writeBlock c) := by
  rw [writeBlock]
  cases c.block w.scope with
  | ok effects => exact puts_perform w effects
  | error r => exact puts_self rfl _

theorem puts_note (text : String) : Puts w (w.note text) := by
  rw [note]
  split
  · exact puts_put w _
  · exact puts_self rfl _

theorem puts_bootstrap (stackBase : UInt16) (entry : String) :
    Puts w (w.bootstrap stackBase entry) := by
  rw [bootstrap]
  split
  · exact puts_self rfl _
  · apply (puts_note w "bootstrap").andThen
    intro v
    apply (puts_perform v (emitAll (Code.setStack stackBase))).andThen
    intro u
    exact puts_writeBlock u (.call entry 0)

theorem puts_apply (op : Operation) : Puts w (w.apply op) := by
  cases op with
  | setUnit unit => exact puts_self rfl _
  | annotate wanted => exact puts_self rfl _
  | write c => exact (puts_note w c.text).andThen fun v => puts_writeBlock v c
  | block c => exact puts_writeBlock w c
  | bootstrap stackBase entry => exact puts_bootstrap w stackBase entry

end Lines

/-! ## Side by side -/

section Cut

variable {n : Nat} {w v : Writer Tape}

/-- A writer with room for `n` bytes in all, and one without a limit, that have written the same. -/
structure Within (n : Nat) (w v : Writer Tape) : Prop where
  bytes : w.sink.bytes = v.sink.bytes
  fits : v.sink.bytes.size ≤ n
  room : w.sink.room = some (n - v.sink.bytes.size)
  free : v.sink.room = none
  scope : w.scope = v.scope
  annotate : w.annotate = v.annotate

/-- A writer whose tape is full, and one without a limit that has written more. -/
structure Full (n : Nat) (w v : Writer Tape) : Prop where
  bytes : w.sink.bytes = v.sink.bytes.extract 0 n
  beyond : n < v.sink.bytes.size
  room : w.sink.room = some 0
  free : v.sink.room = none

/-- Lines that are put on both change nothing about that. -/
theorem Full.puts {ρ τ : Type} (h : Full n w v) {r : Writer Tape × ρ} {q : Writer Tape × τ}
    (left : Puts w r) (right : Puts v q) : Full n r.1 q.1 := by
  obtain ⟨lines, same⟩ := left
  obtain ⟨more, longer⟩ := right
  obtain ⟨free, rest, grown⟩ := Tape.after_free h.free more
  rw [Tape.after_full h.room] at same
  rw [← longer] at free grown
  refine ⟨?_, ?_, same ▸ h.room, free⟩
  · rw [same, grown, Tape.extract_append_of_le_size (Nat.le_of_lt h.beyond), h.bytes]
  · rw [grown, ByteArray.size_append]
    exact Nat.lt_add_right _ h.beyond

/-- What an operation does on both: the same, or there was no room for all of it. -/
inductive Cut (n : Nat) :
    Writer Tape × Except EmitError Unit → Writer Tape × Except EmitError Unit → Prop
  | within {w v : Writer Tape} (same : Within n w v) (result : Except EmitError Unit)
      (other : ∀ cause, result ≠ .error (.io cause)) : Cut n (w, result) (v, result)
  | full {w v : Writer Tape} (full : Full n w v) (cause : String) (result : Except EmitError Unit) :
      Cut n (w, .error (.io cause)) (v, result)

theorem Cut.ok (same : Within n w v) : Cut n (w, .ok ()) (v, .ok ()) :=
  .within same _ fun _ wrong => by cases wrong

theorem Cut.refused (same : Within n w v) (r : Rejection) :
    Cut n (w, .error (.invalidOperand r)) (v, .error (.invalidOperand r)) :=
  .within same _ fun _ wrong => by cases wrong

/-- When there was no room, the one writer stops while the other goes on. -/
theorem Cut.andThen {r q : Writer Tape × Except EmitError Unit}
    {f g : Writer Tape → Writer Tape × Except EmitError Unit} (h : Cut n r q)
    (next : ∀ w v, Within n w v → Cut n (f w) (g v)) (puts : ∀ v, Puts v (g v)) :
    Cut n (Writer.andThen r f) (Writer.andThen q g) := by
  cases h with
  | @within w v same result other =>
    cases result with
    | ok u => exact next w v same
    | error e => exact .within same _ other
  | @full w v full cause result =>
    -- The first writer has stopped. What the other still puts is beyond the limit.
    cases result with
    | ok u => exact .full (full.puts (puts_self rfl ()) (puts v)) cause (g v).2
    | error e => exact .full full cause _

theorem Within.put (h : Within n w v) (line : Line) : Cut n (w.put line) (v.put line) := by
  obtain ⟨⟨bytes, room, fails⟩, scope, annotate⟩ := w
  obtain ⟨⟨bytes', room', fails'⟩, scope', annotate'⟩ := v
  obtain ⟨same, fits, left, free, scopes, notes⟩ := h
  obtain rfl : bytes = bytes' := same
  obtain rfl : room = some (n - bytes.size) := left
  obtain rfl : room' = none := free
  have short : bytes.size ≤ n := fits
  by_cases some : line.text.toUTF8.size ≤ n - bytes.size
  · simp only [Writer.put, Sink.put, Tape.append, if_pos some]
    refine .ok ⟨rfl, ?_, ?_, rfl, scopes, notes⟩
    · rw [ByteArray.size_append]
      omega
    · rw [ByteArray.size_append, Nat.sub_sub]
  · simp only [Writer.put, Sink.put, Tape.append, if_neg some]
    refine .full ⟨(Tape.extract_append_of_size_le short).symm, ?_, rfl, rfl⟩ _ _
    rw [ByteArray.size_append]
    omega

theorem Within.perform (h : Within n w v) (effects : List Effect) :
    Cut n (w.perform effects) (v.perform effects) := by
  induction effects generalizing w v with
  | nil => exact .ok h
  | cons e rest ih =>
    cases e with
    | emit s =>
      exact (h.put (.code s)).andThen (fun w v same => ih same) fun v => puts_perform v rest
    | tick =>
      exact ih ⟨h.bytes, h.fits, h.room, h.free, congrArg (Scope.after · .tick) h.scope, h.annotate⟩
    | enter f =>
      exact ih ⟨h.bytes, h.fits, h.room, h.free, congrArg (Scope.after · (.enter f)) h.scope,
        h.annotate⟩

theorem Within.writeBlock (h : Within n w v) (c : Command) :
    Cut n (w.writeBlock c) (v.writeBlock c) := by
  rw [Writer.writeBlock, Writer.writeBlock, h.scope]
  cases c.block v.scope with
  | ok effects => exact h.perform effects
  | error r => exact .refused h r

theorem Within.note (h : Within n w v) (text : String) : Cut n (w.note text) (v.note text) := by
  rw [Writer.note, Writer.note, h.annotate]
  split
  · exact h.put (.note text)
  · exact .ok h

theorem Within.write (h : Within n w v) (c : Command) : Cut n (w.write c) (v.write c) :=
  (h.note c.text).andThen (fun _ _ same => same.writeBlock c) fun v => puts_writeBlock v c

theorem Within.bootstrap (h : Within n w v) (stackBase : UInt16) (entry : String) :
    Cut n (w.bootstrap stackBase entry) (v.bootstrap stackBase entry) := by
  have call : ∀ v : Writer Tape, Puts v (v.writeBlock (.call entry 0)) :=
    fun v => puts_writeBlock v _
  have set : ∀ v : Writer Tape, Puts v (v.perform (emitAll (Code.setStack stackBase))) :=
    fun v => puts_perform v _
  unfold Writer.bootstrap
  split
  · exact .refused h _
  · refine (h.note "bootstrap").andThen (fun w v same => ?_) fun v => (set v).andThen call
    exact (same.perform _).andThen (fun w v same => same.writeBlock (.call entry 0)) call

theorem Within.apply (h : Within n w v) (op : Operation) : Cut n (w.apply op) (v.apply op) := by
  cases op with
  | setUnit unit =>
    refine .ok ⟨h.bytes, h.fits, h.room, h.free, ?_, h.annotate⟩
    rw [setUnit, h.scope]
    rfl
  | annotate wanted => exact .ok ⟨h.bytes, h.fits, h.room, h.free, h.scope, rfl⟩
  | write c => exact h.write c
  | block c => exact h.writeBlock c
  | bootstrap stackBase entry => exact h.bootstrap stackBase entry

end Cut

/-! ## Scripts -/

section Script

variable {σ : Type} [Sink σ]

theorem script_append (w : Writer σ) (ops more : List Operation) :
    w.script (ops ++ more) =
      (((w.script ops).1.script more).1, (w.script ops).2 ++ ((w.script ops).1.script more).2) := by
  induction ops generalizing w with
  | nil => rfl
  | cons op ops ih =>
    rw [List.cons_append, script, ih]
    rfl

theorem length_script (w : Writer σ) (ops : List Operation) :
    (w.script ops).2.length = ops.length := by
  induction ops generalizing w with
  | nil => rfl
  | cons op ops ih => exact congrArg (· + 1) (ih _)

theorem puts_script (w : Writer σ) (ops : List Operation) : Puts w (w.script ops) := by
  induction ops generalizing w with
  | nil => exact puts_self rfl _
  | cons op ops ih => exact (puts_apply w op).trans (ih _)

/-- A script on both leaves them the same, with the same results, or ran out of room. -/
inductive Ran (n : Nat) : Writer Tape × List (Except EmitError Unit) →
    Writer Tape × List (Except EmitError Unit) → Prop
  | within {w v : Writer Tape} (same : Within n w v) (results : List (Except EmitError Unit))
      (other : ∀ cause, .error (.io cause) ∉ results) : Ran n (w, results) (v, results)
  | full {w v : Writer Tape} (full : Full n w v) (results others : List (Except EmitError Unit)) :
      Ran n (w, results) (v, others)

theorem Within.script {n : Nat} {w v : Writer Tape} (h : Within n w v) (ops : List Operation) :
    Ran n (w.script ops) (v.script ops) := by
  induction ops generalizing w v with
  | nil => exact .within h [] fun _ => List.not_mem_nil
  | cons op ops ih =>
    rw [Writer.script, Writer.script]
    have first := h.apply op
    generalize w.apply op = r, v.apply op = q at first
    cases first with
    | @within w v same result other =>
      have rest := ih same
      -- From here on the two runs are compared as they stand behind the first operation.
      dsimp only
      generalize w.script ops = r, v.script ops = q at rest
      cases rest with
      | within same results others =>
        refine .within same (result :: results) fun cause mem => ?_
        obtain wrong | mem := List.mem_cons.1 mem
        · exact other cause wrong.symm
        · exact others cause mem
      | full full results others => exact .full full _ _
    | full full cause result =>
      exact .full (full.puts (puts_script _ ops) (puts_script _ ops)) _ _

end Script

section Truncates

/-- A script on a tape with the given room. -/
def onTape (room : Option Nat) (failsFlush annotate : Bool) (ops : List Operation) :
    Writer Tape × List (Except EmitError Unit) :=
  (Writer.new (Tape.blank room failsFlush) annotate).script ops

variable (n : Nat) (failsFlush annotate : Bool) (ops : List Operation)

/-- The bytes that a script writes when there is no limit. -/
def written : ByteArray :=
  (onTape none failsFlush annotate ops).1.sink.bytes

/-- What becomes of a script on a tape with room for `n` bytes: it holds the first `n` of what is
written without a limit. As long as there is room, the results and the scopes are those without a
limit. The first operation for which there is none fails because of the tape, and where there is
room for everything, none does. -/
structure Truncates : Prop where
  held : (onTape (some n) failsFlush annotate ops).1.sink.bytes =
    (written failsFlush annotate ops).extract 0 n
  same : ∀ before after, ops = before ++ after → (written failsFlush annotate before).size ≤ n →
    (onTape (some n) failsFlush annotate ops).2.take before.length =
        (onTape none failsFlush annotate ops).2.take before.length ∧
      (onTape (some n) failsFlush annotate before).1.scope =
        (onTape none failsFlush annotate before).1.scope
  stops : ∀ before op after, ops = before ++ op :: after →
    (written failsFlush annotate before).size ≤ n →
    n < (written failsFlush annotate (before ++ [op])).size →
    ∃ cause, (onTape (some n) failsFlush annotate ops).2[before.length]? =
      some (.error (.io cause))
  spared : (written failsFlush annotate ops).size ≤ n →
    ∀ cause, .error (.io cause) ∉ (onTape (some n) failsFlush annotate ops).2

theorem ran_onTape :
    Ran n (onTape (some n) failsFlush annotate ops) (onTape none failsFlush annotate ops) := by
  have start : Within n (Writer.new (Tape.blank (some n) failsFlush) annotate)
      (Writer.new (Tape.blank none failsFlush) annotate) :=
    ⟨rfl, Nat.zero_le n, congrArg some (Nat.sub_zero n).symm, rfl, rfl, rfl⟩
  exact start.script ops

theorem take_onTape (room : Option Nat) (before after : List Operation) :
    (onTape room failsFlush annotate (before ++ after)).2.take before.length =
      (onTape room failsFlush annotate before).2 := by
  rw [onTape, script_append]
  exact List.take_left' (length_script _ before)

theorem onTape_concat (room : Option Nat) (op : Operation) :
    (onTape room failsFlush annotate (ops ++ [op])).1 =
      ((onTape room failsFlush annotate ops).1.apply op).1 := by
  rw [onTape, script_append]
  rfl

/-- The result of an operation behind others. -/
theorem getElem?_onTape (room : Option Nat) (before : List Operation) (op : Operation)
    (after : List Operation) :
    (onTape room failsFlush annotate (before ++ op :: after)).2[before.length]? =
      some ((onTape room failsFlush annotate before).1.apply op).2 := by
  have length := length_script (Writer.new (Tape.blank room failsFlush) annotate) before
  rw [onTape, script_append, ← length, List.getElem?_append_right (Nat.le_refl _), Nat.sub_self]
  rfl

/-- While there is room, both writers are the same. -/
theorem ran_within (room : (written failsFlush annotate ops).size ≤ n) :
    Within n (onTape (some n) failsFlush annotate ops).1 (onTape none failsFlush annotate ops).1 ∧
      (onTape (some n) failsFlush annotate ops).2 = (onTape none failsFlush annotate ops).2 ∧
      ∀ cause, .error (.io cause) ∉ (onTape (some n) failsFlush annotate ops).2 := by
  have ran := ran_onTape n failsFlush annotate ops
  unfold written at room
  generalize onTape (some n) failsFlush annotate ops = r, onTape none failsFlush annotate ops = q
    at ran room
  cases ran with
  | within same results other => exact ⟨same, rfl, other⟩
  | full full => exact absurd room (Nat.not_le_of_lt full.beyond)

end Truncates

/-- A full tape cuts a script short and spoils nothing. -/
theorem script_truncates (n : Nat) (failsFlush annotate : Bool) (ops : List Operation) :
    Truncates n failsFlush annotate ops := by
  refine ⟨?_, ?_, ?_, ?_⟩
  · have ran := ran_onTape n failsFlush annotate ops
    unfold written
    generalize onTape (some n) failsFlush annotate ops = r, onTape none failsFlush annotate ops = q
      at ran
    cases ran with
    | within same => exact same.bytes.trans (Tape.extract_of_size_le same.fits).symm
    | full full => exact full.bytes
  · rintro before after rfl room
    obtain ⟨same, results, -⟩ := ran_within n failsFlush annotate before room
    rw [take_onTape, take_onTape]
    exact ⟨results, same.scope⟩
  · rintro before op after rfl room exceeds
    obtain ⟨same, -, -⟩ := ran_within n failsFlush annotate before room
    have last := same.apply op
    rw [written, onTape_concat] at exceeds
    rw [getElem?_onTape]
    generalize (onTape (some n) failsFlush annotate before).1.apply op = r,
      (onTape none failsFlush annotate before).1.apply op = q at last exceeds
    cases last with
    | within same => exact absurd same.fits (Nat.not_le_of_lt exceeds)
    | full full cause => exact ⟨cause, rfl⟩
  · exact fun room => (ran_within n failsFlush annotate ops room).2.2

/-- A tape of twenty bytes ends in the first line of the block behind its note. -/
def interrupted : List Operation :=
  [.setUnit "Main", .write (.push .constant 7), .write (.pop .constant 1), .block .ret]

theorem script_truncates_interrupted :
    (onTape (some 20) false true interrupted).1.sink.bytes = "// push constant 7\n@".toUTF8 ∧
      (∃ cause, (onTape (some 20) false true interrupted).2[1]? = some (.error (.io cause))) ∧
      (onTape (some 20) false true [.setUnit "Main"]).1.scope = ⟨"Main", none, 0⟩ := by
  have truncates := script_truncates 20 false true interrupted
  refine ⟨?_, ?_, ?_⟩
  · rw [truncates.held]
    decide +kernel
  · exact truncates.stops [.setUnit "Main"] _ _ rfl (by decide +kernel) (by decide +kernel)
  · exact (truncates.same [.setUnit "Main"] _ rfl (by decide +kernel)).2

end Writer

end HackPlatform.Vm
