import HackPlatform.Proofs.Vm.Accepted
import HackPlatform.Vm.Translator

/-!
# The outline of a translation

A translation that succeeds is a sequence of blocks. The outline lists them before any is written:
each with its scope, which follows from the commands before it, and with its note. Writing the
units one after the other gives the lines of the outline and nothing else.
-/

namespace HackPlatform.Vm

open Asm (Statement)

/-- What a block is written for: to set the stack pointer, at the start of the bootstrap, or a
command. -/
inductive Task
  | setStack (base : UInt16)
  | command (c : Command)
  deriving DecidableEq, Repr

/-- A block's place in the outline, with the text of the note in front, if there is one. -/
structure Site where
  scope : Scope
  note : Option String
  task : Task
  deriving DecidableEq, Repr

namespace Site

/-- The statements of the block. -/
def code (s : Site) : List (Statement Symbol) :=
  match s.task with
  | .setStack base => Code.setStack base
  | .command c => c.code s.scope

/-- The checks on the block. -/
def Allowed (s : Site) : Prop :=
  match s.task with
  | .setStack base => base ≤ maxAddress
  | .command c => c.Allowed s.scope

/-- The lines of the block and its note. -/
def lines (s : Site) : List Line :=
  s.note.toList.map .note ++ s.code.map .code

end Site

/-- The commands of a source text whose lines are all commands. -/
def commandsOf (lines : List SourceLine) : List Command :=
  lines.filterMap fun line => (Command.parse line.text).toOption

/-- The scope behind commands. -/
def Scope.run (s : Scope) (commands : List Command) : Scope :=
  commands.foldl Scope.next s

/-- A text is noted if notes are wanted. -/
def noted (annotate : Bool) (text : String) : Option String :=
  if annotate then some text else none

/-- The blocks of commands from a scope on. -/
def sitesFrom (annotate : Bool) : Scope → List Command → List Site
  | _, [] => []
  | s, c :: rest => ⟨s, noted annotate c.text, .command c⟩ :: sitesFrom annotate (s.next c) rest

/-- The scope in front of a unit's first command. -/
def unitScope (unit : String) (labelCount : Nat) : Scope :=
  ⟨unit, none, labelCount⟩

/-- The blocks of units, when a number of labels were made before. -/
def unitSites (annotate : Bool) : Nat → List (String × String) → List Site
  | _, [] => []
  | labelCount, (unit, source) :: rest =>
    let commands := commandsOf (sourceLines source)
    sitesFrom annotate (unitScope unit labelCount) commands ++
      unitSites annotate ((unitScope unit labelCount).run commands).labelCount rest

/-- The blocks of the bootstrap. -/
def bootSites (config : Config) : List Site :=
  [⟨unitScope "" 0, noted config.annotate "bootstrap", .setStack config.stackBase⟩,
   ⟨unitScope "" 0, none, .command (.call config.entry 0)⟩]

/-- The blocks of a translation. -/
def outline (units : List (String × String)) (bootstrap : Bool) (config : Config) : List Site :=
  if bootstrap then bootSites config ++ unitSites config.annotate 1 units
  else unitSites config.annotate 0 units

/-- Two scopes share their labels: they are within one function, or outside all in one unit. -/
def Scope.SameLabels (s t : Scope) : Prop :=
  s.function = t.function ∧ (s.function = none → s.unit = t.unit)

theorem Scope.SameLabels.labelSymbol {s t : Scope} (h : s.SameLabels t) (name : String) :
    s.labelSymbol name = t.labelSymbol name := by
  obtain ⟨function, unit⟩ := h
  unfold Scope.labelSymbol
  rw [← function]
  cases there : s.function with
  | some f => rfl
  | none => rw [unit there]

/-- A block is written for a task. -/
def TaskAt (sites : List Site) (k : Nat) (task : Task) : Prop :=
  ∃ s, sites[k]? = some s ∧ s.task = task

/-- Every function that is called and every label that is jumped to is there. -/
structure Closed (sites : List Site) : Prop where
  calls : ∀ i f args, TaskAt sites i (.command (.call f args)) →
    ∃ j locals, TaskAt sites j (.command (.function f locals))
  jumps : ∀ s ∈ sites, ∀ name, s.task = .command (.goto name) ∨ s.task = .command (.ifGoto name) →
    ∃ t ∈ sites, t.task = .command (.label name) ∧ s.scope.SameLabels t.scope

/-! ## Writing -/

namespace Writer

/-- The writer got from one scope to another by writing blocks that were all accepted. -/
structure Wrote (w : Writer Page) (sites : List Site) (scope : Scope) (w' : Writer Page) :
    Prop where
  allowed : ∀ s ∈ sites, s.Allowed
  lines : w'.sink.lines.toList = w.sink.lines.toList ++ sites.flatMap Site.lines
  scope : w'.scope = scope
  annotate : w'.annotate = w.annotate

variable {w w' w'' : Writer Page}

theorem Wrote.refl (w : Writer Page) : w.Wrote [] w.scope w :=
  ⟨by simp, by simp, rfl, rfl⟩

theorem Wrote.trans {sites more : List Site} {scope scope' : Scope}
    (h : w.Wrote sites scope w') (h' : w'.Wrote more scope' w'') :
    w.Wrote (sites ++ more) scope' w'' := by
  refine ⟨?_, ?_, h'.scope, h'.annotate.trans h.annotate⟩
  · exact List.forall_mem_append.2 ⟨h.allowed, h'.allowed⟩
  · rw [h'.lines, h.lines, List.flatMap_append, List.append_assoc]

/-- A page takes all effects. -/
theorem perform_page (w : Writer Page) (effects : List Effect) :
    ∃ w', w.perform effects = (w', .ok ()) ∧ w'.annotate = w.annotate ∧
      w'.scope = effects.foldl Scope.after w.scope ∧
      w'.sink.lines.toList = w.sink.lines.toList ++ (emitted effects).map .code := by
  induction effects generalizing w with
  | nil => exact ⟨w, rfl, rfl, rfl, (List.append_nil _).symm⟩
  | cons e rest ih =>
    cases e with
    | emit s =>
      obtain ⟨w', done, annotate, scope, lines⟩ := ih ⟨⟨w.sink.lines.push (.code s)⟩, w.scope, w.annotate⟩
      refine ⟨w', done, annotate, scope, lines.trans ?_⟩
      rw [Array.toList_push, List.append_assoc]
      rfl
    | tick =>
      obtain ⟨w', done, annotate, scope, lines⟩ := ih { w with scope := w.scope.after .tick }
      exact ⟨w', done, annotate, scope, lines⟩
    | enter f =>
      obtain ⟨w', done, annotate, scope, lines⟩ := ih { w with scope := w.scope.after (.enter f) }
      exact ⟨w', done, annotate, scope, lines⟩

/-- A page takes a note. -/
theorem note_page (w : Writer Page) (text : String) :
    ∃ w', w.note text = (w', .ok ()) ∧ w'.annotate = w.annotate ∧ w'.scope = w.scope ∧
      w'.sink.lines.toList =
        w.sink.lines.toList ++ (noted w.annotate text).toList.map .note := by
  obtain ⟨page, scope, annotate⟩ := w
  cases annotate with
  | true => exact ⟨⟨⟨page.lines.push (.note text)⟩, scope, true⟩, rfl, rfl, rfl, by simp [noted]⟩
  | false => exact ⟨⟨page, scope, false⟩, rfl, rfl, rfl, by simp [noted]⟩

/-- The block of a command is written when it is accepted. -/
theorem writeBlock_wrote {c : Command} (h : w.writeBlock c = (w', .ok ())) :
    w.Wrote [⟨w.scope, none, .command c⟩] (w.scope.next c) w' := by
  unfold writeBlock at h
  split at h
  · next effects block =>
    have accepted := block_accepted block
    obtain ⟨_, done, annotate, scope, lines⟩ := perform_page w effects
    rw [done] at h
    cases h
    refine ⟨?_, ?_, scope.trans accepted.next, annotate⟩
    · simpa [Site.Allowed] using accepted.allowed
    · rw [lines, accepted.code]
      simp [Site.lines, Site.code]
  · cases h

/-- A command is written as its note and its block. -/
theorem write_wrote {c : Command} (h : w.write c = (w', .ok ())) :
    w.Wrote [⟨w.scope, noted w.annotate c.text, .command c⟩] (w.scope.next c) w' := by
  obtain ⟨mid, done, annotate, scope, lines⟩ := note_page w c.text
  rw [write, done] at h
  have block := writeBlock_wrote h
  rw [scope] at block
  refine ⟨?_, ?_, block.scope, block.annotate.trans annotate⟩
  · simpa [Site.Allowed] using block.allowed
  · rw [block.lines, lines]
    simp [Site.lines, Site.code]

theorem bootstrap_wrote {stackBase : UInt16} {entry : String} (fresh : w.scope = unitScope "" 0)
    (h : w.bootstrap stackBase entry = (w', .ok ())) :
    w.Wrote (bootSites ⟨.auto, entry, stackBase, w.annotate⟩) ((unitScope "" 0).tick) w' := by
  unfold bootstrap at h
  split at h
  · cases h
  · next low =>
    obtain ⟨mid, done, annotate, scope, lines⟩ := note_page w "bootstrap"
    rw [done] at h
    obtain ⟨set, done, annotate', scope', lines'⟩ :=
      perform_page mid (emitAll (Code.setStack stackBase))
    simp only [andThen, done] at h
    rw [foldl_after_emitAll, scope, fresh] at scope'
    have block := writeBlock_wrote h
    rw [scope'] at block
    have start : w.Wrote [⟨unitScope "" 0, noted w.annotate "bootstrap", .setStack stackBase⟩]
        (unitScope "" 0) set := by
      refine ⟨?_, ?_, scope', annotate'.trans annotate⟩
      · simpa [Site.Allowed] using UInt16.not_lt.1 low
      · rw [lines', lines, emitted_emitAll]
        simp [Site.lines, Site.code]
    exact start.trans block

end Writer

namespace Translator

/-- A source text is translated line by line, in the scope of a new unit. -/
theorem translateSource_eq {σ : Type} [Sink σ] (t : Translator σ) (unit source : String) :
    t.translateSource unit source =
      (⟨(writeLines unit 0 (t.writer.setUnit unit) (sourceLines source)).1, t.config⟩,
        (writeLines unit 0 (t.writer.setUnit unit) (sourceLines source)).2) := rfl

theorem translateSource_eq_ok_iff {σ : Type} [Sink σ] {t t' : Translator σ} {unit source : String}
    {n : Nat} : t.translateSource unit source = (t', .ok n) ↔
      writeLines unit 0 (t.writer.setUnit unit) (sourceLines source) = (t'.writer, .ok n) ∧
        t.config = t'.config := by
  rw [translateSource_eq]
  cases writeLines unit 0 (t.writer.setUnit unit) (sourceLines source) with
  | mk w result =>
    obtain ⟨w', config'⟩ := t'
    simp only [Prod.mk.injEq, Translator.mk.injEq]
    exact and_right_comm

open Writer

variable {w w' : Writer Page}

/-- The lines of a unit are all commands, and their blocks are written in order. -/
theorem writeLines_wrote {unit : String} {lines : List SourceLine} {done n : Nat}
    (h : writeLines unit done w lines = (w', .ok n)) :
    w.Wrote (sitesFrom w.annotate w.scope (commandsOf lines)) (w.scope.run (commandsOf lines)) w' := by
  induction lines generalizing w done with
  | nil =>
    cases h
    exact .refl _
  | cons line lines ih =>
    rw [writeLines] at h
    split at h
    · cases h
    · next c parsed =>
      have commands : commandsOf (line :: lines) = c :: commandsOf lines := by
        simp [commandsOf, parsed, Except.toOption]
      split at h
      · next mid wrote =>
        have first := write_wrote wrote
        have rest := ih h
        rw [first.scope, first.annotate] at rest
        rw [commands]
        exact first.trans rest
      · cases h

theorem translateUnits_wrote {config : Config} {units : List (String × String)} {t : Translator Page}
    (h : translateUnits ⟨w, config⟩ units = (t, .ok ())) :
    ∃ scope, w.Wrote (unitSites w.annotate w.scope.labelCount units) scope t.writer := by
  induction units generalizing w with
  | nil =>
    cases h
    exact ⟨w.scope, .refl w⟩
  | cons unit units ih =>
    obtain ⟨unit, source⟩ := unit
    rw [translateUnits, translateSource_eq] at h
    cases written : writeLines unit 0 (w.setUnit unit) (sourceLines source) with
    | mk mid result =>
      rw [written] at h
      cases result with
      | error e => cases h
      | ok n =>
        have first := writeLines_wrote written
        obtain ⟨scope, rest⟩ := ih h
        rw [first.scope, first.annotate] at rest
        have unit : w.Wrote (sitesFrom w.annotate (unitScope unit w.scope.labelCount)
            (commandsOf (sourceLines source))) mid.scope mid :=
          ⟨first.allowed, first.lines, rfl, first.annotate⟩
        rw [first.scope] at unit
        exact ⟨scope, unit.trans rest⟩

end Translator

/-- A translation starts with the bootstrap, if that is wanted, and goes on with the units. -/
theorem translateOnto_eq_ok_iff {σ : Type} [Sink σ] {t t' : Translator σ}
    {units : List (String × String)} {bootstrap : Bool} :
    translateOnto t units bootstrap = (t', .ok ()) ↔
      ∃ v, (if bootstrap then t.bootstrap else (t, .ok ())) = (v, .ok ()) ∧
        v.translateUnits units = (t', .ok ()) := by
  rw [translateOnto]
  cases (if bootstrap then t.bootstrap else (t, .ok ())) with
  | mk v result => cases result <;> simp

/-- A page is what the translator leaves when all units are written. -/
theorem translate_eq_ok_iff {units : List (String × String)} {bootstrap : Bool} {config : Config}
    {page : Page} : translate units bootstrap config = .ok page ↔
      ∃ t, translateOnto (.new Page.empty config) units bootstrap = (t, .ok ()) ∧
        t.writer.sink = page := by
  rw [translate]
  cases translateOnto (.new Page.empty config) units bootstrap with
  | mk t result =>
    cases result with
    | error e => simp
    | ok u =>
      have done : t.finish = .ok t.writer.sink := rfl
      simp [done]

/-- A translation that succeeds gives the lines of its outline, and every block was accepted. -/
theorem translate_outline {units : List (String × String)} {bootstrap : Bool} {config : Config}
    {page : Page} (h : translate units bootstrap config = .ok page) :
    page.lines.toList = (outline units bootstrap config).flatMap Site.lines ∧
      ∀ s ∈ outline units bootstrap config, s.Allowed := by
  obtain ⟨t, done, rfl⟩ := translate_eq_ok_iff.1 h
  obtain ⟨v, start, written⟩ := translateOnto_eq_ok_iff.1 done
  have wrote : ∃ scope, (Writer.new Page.empty config.annotate).Wrote
      (outline units bootstrap config) scope t.writer := by
    cases bootstrap with
    | false =>
      cases start
      exact Translator.translateUnits_wrote written
    | true =>
      rw [if_pos rfl, Translator.new, Translator.bootstrap] at start
      split at start
      · next w booted =>
        cases start
        have boot := Writer.bootstrap_wrote rfl booted
        obtain ⟨scope, wrote⟩ := Translator.translateUnits_wrote written
        rw [boot.scope, boot.annotate] at wrote
        exact ⟨scope, boot.trans wrote⟩
      · cases start
  obtain ⟨scope, wrote⟩ := wrote
  exact ⟨wrote.lines, wrote.allowed⟩

theorem translateSources_eq_ok {units : List (String × String)} {bootstrap : Bool} {config : Config}
    {text : String} (h : translateSources units bootstrap config = .ok text) :
    ∃ page, translate units bootstrap config = .ok page ∧ page.text = text := by
  rw [translateSources] at h
  cases done : translate units bootstrap config with
  | error e =>
    rw [done] at h
    cases h
  | ok page =>
    rw [done] at h
    cases h
    exact ⟨page, rfl, rfl⟩

/-- A result is known by its value. -/
theorem eq_ok_of_toOption {ε α : Type} {x : Except ε α} {a : α} (h : x.toOption = some a) :
    x = .ok a := by
  cases x with
  | error e => cases h
  | ok b =>
    cases h
    rfl

end HackPlatform.Vm
