import HackPlatform.Proofs.Vm.Cursor
import HackPlatform.Proofs.Vm.Script

/-!
# Driving a unit

A translator takes lines from a cursor, wherever that stands, and writes their blocks until a line is
no command or its command is refused. That line is named, with the place that the cursor has for it.
What was written before stays, and later units are translated as if nothing had gone wrong.
-/

namespace HackPlatform.Vm

/-- Lines are commands that are accepted one after the other, and these are their blocks and the
scope behind them. -/
inductive Accepts (annotate : Bool) : Scope → List SourceLine → List Site → Scope → Prop
  | nil (s : Scope) : Accepts annotate s [] [] s
  | cons {s s' : Scope} {line : SourceLine} {c : Command} {lines : List SourceLine}
      {sites : List Site} (parsed : Command.parse line.text = .ok c) (allowed : c.Allowed s)
      (more : Accepts annotate (s.next c) lines sites s') :
      Accepts annotate s (line :: lines) (⟨s, noted annotate c.text, .command c⟩ :: sites) s'

/-- A line is no command, or its command is refused. Only in the second case something is written,
the note. -/
inductive Stops (annotate : Bool) (unit : String) (s : Scope) (line : SourceLine) :
    List Line → TranslateError → Prop
  | parse {cause : ParseError} (fault : Command.parse line.text = .error cause) :
      Stops annotate unit s line [] (.parse unit line.number line.text cause)
  | emit {c : Command} {r : Rejection} (parsed : Command.parse line.text = .ok c)
      (refused : c.block s = .error r) :
      Stops annotate unit s line ((noted annotate c.text).toList.map .note)
        (.emit unit line.number line.text (.invalidOperand r))

/-- Some line is the first to stop, or all are accepted. -/
theorem accepts_or_stops (annotate : Bool) (unit : String) (s : Scope) (lines : List SourceLine) :
    (∃ sites s', Accepts annotate s lines sites s') ∨
      ∃ front line back sites s' notes e, lines = front ++ line :: back ∧
        Accepts annotate s front sites s' ∧ Stops annotate unit s' line notes e := by
  induction lines generalizing s with
  | nil => exact .inl ⟨[], s, .nil s⟩
  | cons line lines ih =>
    have stop {notes : List Line} {e : TranslateError} (h : Stops annotate unit s line notes e) :
        ∃ front first back sites s' notes e, line :: lines = front ++ first :: back ∧
          Accepts annotate s front sites s' ∧ Stops annotate unit s' first notes e :=
      ⟨[], line, lines, [], s, notes, e, rfl, .nil s, h⟩
    cases parsed : Command.parse line.text with
    | error cause => exact .inr (stop (.parse parsed))
    | ok c =>
      cases block : c.block s with
      | error r => exact .inr (stop (.emit parsed block))
      | ok effects =>
        have allowed := (block_accepted block).allowed
        obtain ⟨sites, s', all⟩ | ⟨front, first, back, sites, s', notes, e, rfl, before, here⟩ :=
          ih (s.next c)
        · exact .inl ⟨_, s', .cons parsed allowed all⟩
        · exact .inr ⟨line :: front, first, back, _, s', notes, e, rfl,
            .cons parsed allowed before, here⟩

namespace Writer

section

variable {σ : Type} [Sink σ] {w : Writer σ}

/-- The writer after lines that its sink took. -/
def wrote (w : Writer σ) (lines : List Line) (s : Scope) : Writer σ :=
  ⟨Sink.after w.sink lines, s, w.annotate⟩

theorem wrote_wrote (w : Writer σ) (lines more : List Line) (s s' : Scope) :
    (w.wrote lines s).wrote more s' = w.wrote (lines ++ more) s' := by
  simp only [wrote, Sink.after_append]

theorem Mirrors.eq_wrote {start : σ} {v : Writer σ} {p : Writer Page} (h : Mirrors start v p)
    {lines : List Line} {s : Scope} (sink : w.sink = start) (page : p.sink.lines.toList = lines)
    (scope : p.scope = s) (annotate : p.annotate = w.annotate) : v = w.wrote lines s := by
  obtain ⟨sink', scope', annotate'⟩ := v
  obtain ⟨here, same, notes⟩ := h
  simp only at here same notes
  rw [wrote, here, same, notes, page, scope, annotate, sink]

variable (takes : Sink.Takes w.sink)

include takes

/-- An accepted command is written, with its note. -/
theorem write_of_allowed {c : Command} (allowed : c.Allowed w.scope) :
    w.write c = (w.wrote (Site.lines ⟨w.scope, noted w.annotate c.text, .command c⟩)
      (w.scope.next c), .ok ()) := by
  obtain ⟨effects, block⟩ := exists_block allowed
  have answer : (w.write c).2 = .ok () := by
    rw [write_answer takes, writeBlock_answer takes, block]
    rfl
  have follows := (mirrors_onPage w).write takes c
  have page : w.onPage.write c = ((w.onPage.write c).1, .ok ()) :=
    Prod.ext rfl (follows.result.symm.trans answer)
  obtain ⟨-, lines, scope, annotate⟩ := write_wrote page
  rw [List.flatMap_singleton] at lines
  exact Prod.ext (follows.mirrors.eq_wrote rfl lines scope annotate) answer

/-- A refused command leaves its note. -/
theorem write_of_block_error {c : Command} {r : Rejection} (block : c.block w.scope = .error r) :
    w.write c = (w.wrote ((noted w.annotate c.text).toList.map .note) w.scope,
      .error (.invalidOperand r)) := by
  have answer : (w.write c).2 = .error (.invalidOperand r) := by
    rw [write_answer takes, writeBlock_answer takes, block]
    rfl
  refine Prod.ext ?_ answer
  rw [write_of_refused takes block]
  cases annotate : w.annotate with
  | true => simp [wrote, noted, annotate, Sink.after]
  | false =>
    obtain ⟨sink, scope, _⟩ := w
    simp_all [wrote, noted, Sink.after]

end

end Writer

namespace Translator

open Writer

section

variable {σ : Type} [Sink σ] {w : Writer σ} (takes : Sink.Takes w.sink) {unit : String}

include takes

/-- Accepted lines are written, and the lines behind them are what is left to do. -/
theorem writeLines_append {annotate : Bool} {front : List SourceLine} {sites : List Site}
    {s s' : Scope} (accepts : Accepts annotate s front sites s') (scope : w.scope = s)
    (notes : w.annotate = annotate) (done : Nat) (back : List SourceLine) :
    writeLines unit done w (front ++ back) =
      writeLines unit (done + front.length) (w.wrote (sites.flatMap Site.lines) s') back := by
  -- Along what was accepted, the writer is in the scope of the next line.
  induction accepts generalizing w done with
  | nil =>
    subst scope
    rfl
  | @cons s s' line c lines sites parsed allowed more ih =>
    subst scope notes
    let site : Site := ⟨w.scope, noted w.annotate c.text, .command c⟩
    have written : w.write c = (w.wrote site.lines (w.scope.next c), .ok ()) :=
      write_of_allowed takes allowed
    have rest := ih (w := w.wrote site.lines (w.scope.next c)) (takes.after _) rfl rfl (done + 1)
    rw [wrote_wrote, ← List.flatMap_cons] at rest
    rw [List.cons_append, writeLines, parsed]
    simp only [written]
    rw [rest, List.length_cons, Nat.add_right_comm, Nat.add_assoc]

theorem writeLines_of_accepts {lines : List SourceLine} {sites : List Site} {s : Scope}
    (accepts : Accepts w.annotate w.scope lines sites s) :
    writeLines unit 0 w lines = (w.wrote (sites.flatMap Site.lines) s, .ok lines.length) := by
  have all : writeLines unit 0 w (lines ++ []) = _ := writeLines_append takes accepts rfl rfl 0 []
  rw [List.append_nil, Nat.zero_add] at all
  exact all

theorem writeLines_of_stops {front back : List SourceLine} {line : SourceLine} {sites : List Site}
    {s : Scope} {notes : List Line} {e : TranslateError}
    (accepts : Accepts w.annotate w.scope front sites s)
    (stops : Stops w.annotate unit s line notes e) :
    writeLines unit 0 w (front ++ line :: back) =
      (w.wrote (sites.flatMap Site.lines ++ notes) s, .error e) := by
  rw [writeLines_append takes accepts rfl rfl, writeLines]
  cases stops with
  | parse fault =>
    rw [fault, List.append_nil]
  | emit parsed refused =>
    have written := write_of_block_error (w := w.wrote (sites.flatMap Site.lines) s)
      (takes.after _) refused
    rw [parsed]
    simp only [written, wrote_wrote]
    rfl

end

section

variable {σ : Type} [Sink σ]

/-- Advances a cursor and writes what it hands out. Where a command is refused, the cursor is asked
for the line that it handed out last. -/
def drive (done : Nat) (w : Writer σ) (c : Cursor) : Writer σ × Except TranslateError Nat :=
  match _here : c.advance with
  | (none, _) => (w, .ok done)
  | (some (line, .error cause), next) =>
    (w, .error (.parse next.unit line.number line.text cause))
  | (some (_, .ok command), next) =>
    match w.write command with
    | (w, .ok ()) => drive (done + 1) w next
    | (w, .error cause) =>
      let line := next.currentLine?.getD ⟨0, ""⟩
      (w, .error (.emit next.unit line.number line.text cause))
termination_by c.rest.length
decreasing_by
  rw [(Cursor.advance_some _here).1]
  exact Nat.lt_succ_self _

/-- The loop writes the lines that are left. -/
theorem drive_eq (done : Nat) (w : Writer σ) (c : Cursor) :
    drive done w c = writeLines c.unit done w c.rest := by
  fun_induction drive done w c with
  | case1 done w c next h => rw [Cursor.advance_none h, writeLines]
  | case2 done w c line cause next h =>
    obtain ⟨left, reading, unit, -⟩ := Cursor.advance_some h
    rw [left, writeLines, ← reading, unit]
  | case3 done w c line command next h v written ih =>
    obtain ⟨left, reading, unit, -⟩ := Cursor.advance_some h
    rw [left, writeLines, ← reading, ih, unit]
    simp only [written]
  | case4 done w c line command next h v cause written place =>
    obtain ⟨left, reading, unit, current⟩ := Cursor.advance_some h
    rw [left, writeLines, ← reading]
    simp only [written, place, current, unit, Option.getD_some]

/-- Translates cursors one after the other, whether they succeed or not. -/
def translateEach (t : Translator σ) :
    List Cursor → Translator σ × List (Except TranslateError Nat)
  | [] => (t, [])
  | c :: rest =>
    let done := t.translateUnit c
    let (t, results) := done.1.translateEach rest
    (t, done.2 :: results)

theorem writeLines_follows {start : σ} {w : Writer σ} {p : Writer Page} (takes : Sink.Takes start)
    (h : Mirrors start w p) (unit : String) (done : Nat) (lines : List SourceLine) :
    Follows start (writeLines unit done w lines) (writeLines unit done p lines) := by
  induction lines generalizing w p done with
  | nil => exact ⟨rfl, h⟩
  | cons line lines ih =>
    rw [writeLines, writeLines]
    cases Command.parse line.text with
    | error cause => exact ⟨rfl, h⟩
    | ok c =>
      obtain ⟨answer, mirrors⟩ := h.write takes c
      dsimp only
      generalize w.write c = r at answer mirrors ⊢
      generalize p.write c = q at answer mirrors ⊢
      obtain ⟨v, result⟩ := r
      obtain ⟨u, result'⟩ := q
      obtain rfl : result = result' := answer
      cases result with
      | ok _ => exact ih mirrors (done + 1)
      | error cause => exact ⟨rfl, mirrors⟩

/-- Units only see of a writer its sink, the number of labels and whether notes are wanted. -/
theorem translateEach_follows {start : σ} {t : Translator σ} {q : Translator Page}
    (takes : Sink.Takes start)
    (sink : t.writer.sink = Sink.after start q.writer.sink.lines.toList)
    (labelCount : t.writer.scope.labelCount = q.writer.scope.labelCount)
    (annotate : t.writer.annotate = q.writer.annotate) (cursors : List Cursor) :
    (t.translateEach cursors).2 = (q.translateEach cursors).2 ∧
      (t.translateEach cursors).1.writer.sink =
        Sink.after start (q.translateEach cursors).1.writer.sink.lines.toList := by
  induction cursors generalizing t q with
  | nil => exact ⟨rfl, sink⟩
  | cons c cursors ih =>
    have mirrors : Mirrors start (t.writer.setUnit c.unit) (q.writer.setUnit c.unit) :=
      ⟨sink, congrArg (Scope.mk c.unit none) labelCount, annotate⟩
    have unit := writeLines_follows takes mirrors c.unit 0 c.rest
    obtain ⟨results, rest⟩ := ih (t := (t.translateUnit c).1) (q := (q.translateUnit c).1)
      unit.mirrors.sink (congrArg Scope.labelCount unit.mirrors.scope) unit.mirrors.annotate
    exact ⟨congr (congrArg List.cons unit.result) results, rest⟩

end

/-! ## The driver -/

section

variable {σ : Type} [Sink σ]

/-- The scope in which a cursor's lines are written. -/
def startScope (t : Translator σ) (c : Cursor) : Scope :=
  unitScope c.unit t.writer.scope.labelCount

/-- The translator after lines that its sink took. -/
def wrote (t : Translator σ) (lines : List Line) (s : Scope) : Translator σ :=
  ⟨t.writer.wrote lines s, t.config⟩

/-- A translator with the same settings and the same number of labels made, which knows nothing else
of what was before. -/
def fresh {τ : Type} (t : Translator σ) (sink : τ) : Translator τ :=
  ⟨⟨sink, unitScope "" t.writer.scope.labelCount, t.writer.annotate⟩, t.config⟩

/-- A translator drives a unit line by line: it stops at the first bad line, and blames it. Later
units get the same results and lead to the same lines as from a fresh translator, on whatever sink
that writes. -/
structure DrivesUnit (t : Translator σ) (c : Cursor) : Prop where
  loop : t.translateUnit c =
    (⟨(drive 0 (t.writer.setUnit c.unit) c).1, t.config⟩, (drive 0 (t.writer.setUnit c.unit) c).2)
  ok : ∀ n, (t.translateUnit c).2 = .ok n ↔ n = c.rest.length ∧
    ∃ sites s, Accepts t.writer.annotate (t.startScope c) c.rest sites s
  error : ∀ e, (t.translateUnit c).2 = .error e ↔ ∃ front line back sites s notes,
    c.rest = front ++ line :: back ∧ Accepts t.writer.annotate (t.startScope c) front sites s ∧
      Stops t.writer.annotate c.unit s line notes e
  written : ∀ sites s, Accepts t.writer.annotate (t.startScope c) c.rest sites s →
    (t.translateUnit c).1 = t.wrote (sites.flatMap Site.lines) s
  stopped : ∀ front line back sites s notes e, c.rest = front ++ line :: back →
    Accepts t.writer.annotate (t.startScope c) front sites s →
      Stops t.writer.annotate c.unit s line notes e →
        (t.translateUnit c).1 = t.wrote (sites.flatMap Site.lines ++ notes) s
  following : ∀ (τ : Type) [Sink τ] (sink : τ), Sink.Takes sink → ∀ later : List Cursor,
    let after := (t.translateUnit c).1
    (after.translateEach later).2 = ((after.fresh sink).translateEach later).2 ∧
      ∃ lines, (after.translateEach later).1.writer.sink = Sink.after after.writer.sink lines ∧
        ((after.fresh sink).translateEach later).1.writer.sink = Sink.after sink lines

section

variable {t : Translator σ} (takes : Sink.Takes t.writer.sink)

include takes

theorem translateUnit_of_accepts {c : Cursor} {sites : List Site} {s : Scope}
    (accepts : Accepts t.writer.annotate (t.startScope c) c.rest sites s) :
    t.translateUnit c = (t.wrote (sites.flatMap Site.lines) s, .ok c.rest.length) := by
  have written : writeLines c.unit 0 (t.writer.setUnit c.unit) c.rest = _ :=
    writeLines_of_accepts (w := t.writer.setUnit c.unit) takes accepts
  rw [translateUnit, written]
  rfl

theorem translateUnit_of_stops {c : Cursor} {front back : List SourceLine} {line : SourceLine}
    {sites : List Site} {s : Scope} {notes : List Line} {e : TranslateError}
    (left : c.rest = front ++ line :: back)
    (accepts : Accepts t.writer.annotate (t.startScope c) front sites s)
    (stops : Stops t.writer.annotate c.unit s line notes e) :
    t.translateUnit c = (t.wrote (sites.flatMap Site.lines ++ notes) s, .error e) := by
  have written : writeLines c.unit 0 (t.writer.setUnit c.unit) (front ++ line :: back) = _ :=
    writeLines_of_stops (w := t.writer.setUnit c.unit) takes accepts stops
  rw [translateUnit, left, written]
  rfl

/-- The sink of a translated unit still takes every line. -/
theorem translateUnit_takes (c : Cursor) : Sink.Takes (t.translateUnit c).1.writer.sink := by
  obtain ⟨sites, s, all⟩ | ⟨front, line, back, sites, s, notes, e, left, before, here⟩ :=
    accepts_or_stops t.writer.annotate c.unit (t.startScope c) c.rest
  · rw [translateUnit_of_accepts takes all]
    exact takes.after _
  · rw [translateUnit_of_stops takes left before here]
    exact takes.after _

theorem translateUnit_ok_iff {c : Cursor} {n : Nat} :
    (t.translateUnit c).2 = .ok n ↔ n = c.rest.length ∧
      ∃ sites s, Accepts t.writer.annotate (t.startScope c) c.rest sites s := by
  constructor
  · intro done
    obtain ⟨sites, s, all⟩ | ⟨front, line, back, sites, s, notes, e, left, before, here⟩ :=
      accepts_or_stops t.writer.annotate c.unit (t.startScope c) c.rest
    · rw [translateUnit_of_accepts takes all] at done
      cases done
      exact ⟨rfl, sites, s, all⟩
    · rw [translateUnit_of_stops takes left before here] at done
      cases done
  · rintro ⟨rfl, sites, s, all⟩
    rw [translateUnit_of_accepts takes all]

theorem translateUnit_error_iff {c : Cursor} {e : TranslateError} :
    (t.translateUnit c).2 = .error e ↔ ∃ front line back sites s notes,
      c.rest = front ++ line :: back ∧ Accepts t.writer.annotate (t.startScope c) front sites s ∧
        Stops t.writer.annotate c.unit s line notes e := by
  constructor
  · intro failed
    obtain ⟨sites, s, all⟩ | ⟨front, line, back, sites, s, notes, e, left, before, here⟩ :=
      accepts_or_stops t.writer.annotate c.unit (t.startScope c) c.rest
    · rw [translateUnit_of_accepts takes all] at failed
      cases failed
    · rw [translateUnit_of_stops takes left before here] at failed
      cases failed
      exact ⟨front, line, back, sites, s, notes, left, before, here⟩
  · rintro ⟨front, line, back, sites, s, notes, left, before, here⟩
    rw [translateUnit_of_stops takes left before here]

theorem drivesUnit_of_takes (c : Cursor) : DrivesUnit t c where
  loop := by
    rw [drive_eq]
    rfl
  ok n := translateUnit_ok_iff takes
  error e := translateUnit_error_iff takes
  written sites s all := by
    rw [translateUnit_of_accepts takes all]
  stopped front line back sites s notes e left before here := by
    rw [translateUnit_of_stops takes left before here]
  following τ _ sink takes' later := by
    -- Both do what a translator of the same number of labels does on a page.
    intro after
    have first := translateEach_follows (q := after.fresh Page.empty)
      (translateUnit_takes takes c) rfl rfl rfl later
    have second := translateEach_follows (t := after.fresh sink) (q := after.fresh Page.empty)
      takes' rfl rfl rfl later
    exact ⟨first.1.trans second.1.symm, _, first.2, second.2⟩

end

/-- On a sink that takes every line, a translator drives a unit from wherever a cursor over its
source was moved to. The lines that are left then are the last ones of the source. -/
theorem translateUnit_drives {t : Translator σ} (takes : Sink.Takes t.writer.sink)
    (unit source : String) (moves : List Cursor.Move) :
    let c := moves.foldl Cursor.move (.ofSource unit source)
    c.unit = unit ∧ c.rest <:+ sourceLines source ∧ DrivesUnit t c :=
  ⟨(Cursor.moved moves _).1, Cursor.rest_suffix moves unit source, drivesUnit_of_takes takes _⟩

end

/-- The first line was passed by, the second is written, and the third is refused: nothing is kept
of it but its note. -/
theorem translateUnit_drives_refused :
    let t := Translator.new (Tape.blank none false) ⟨.auto, "Sys.init", 256, true⟩
    let c := [Cursor.Move.advance].foldl Cursor.move
      (.ofSource "Main" "push constant 1\nnot\npop constant 0 // no\nadd")
    ∃ r, (t.translateUnit c).2 = .error (.emit "Main" 3 "pop constant 0" (.invalidOperand r)) ∧
      (t.translateUnit c).1.writer.sink.bytes =
        "// not\n@SP\nA=M-1\nM=!M\n// pop constant 0\n".toUTF8 := by
  intro t c
  obtain ⟨unit, -, drives⟩ := translateUnit_drives (t := t)
    (Tape.takes (t := Tape.blank none false) rfl) "Main"
    "push constant 1\nnot\npop constant 0 // no\nadd" [.advance]
  change c.unit = "Main" at unit
  have left : c.rest = [⟨2, "not"⟩] ++ ⟨3, "pop constant 0"⟩ :: [⟨4, "add"⟩] := rfl
  have before : Accepts true (t.startScope c) [⟨2, "not"⟩]
      [⟨t.startScope c, some "not", .command (.operate .not)⟩] (t.startScope c) :=
    .cons (c := .operate .not) rfl trivial (.nil _)
  have here : Stops true c.unit (t.startScope c) ⟨3, "pop constant 0"⟩ [.note "pop constant 0"]
      (.emit c.unit 3 "pop constant 0" (.invalidOperand ⟨"pop constant 0", .pushOnly⟩)) :=
    .emit (c := .pop .constant 0) rfl rfl
  refine ⟨⟨"pop constant 0", .pushOnly⟩, ?_, ?_⟩
  · rw [← unit]
    exact (drives.error _).2 ⟨_, _, _, _, _, _, left, before, here⟩
  · rw [drives.stopped _ _ _ _ _ _ _ left before here]
    decide +kernel

end Translator

end HackPlatform.Vm
