import HackPlatform.Proofs.Vm.Outline

/-!
# What a refusal depends on

Whether a command is refused, and why, depends on its unit and function only: neither on the labels
made before nor on what was written, and not on whether notes are wanted. A unit starts outside all
functions, so whether units are translated does not depend on those before them.
-/

namespace HackPlatform.Vm

/-- A result without its value: only whether there is one, and why not. -/
def verdict {ε α : Type} (x : Except ε α) : Except ε Unit :=
  x.map fun _ => ()

section

variable {ε α β : Type}

@[simp] theorem verdict_ok (a : α) : verdict (.ok a : Except ε α) = .ok () := rfl

@[simp] theorem verdict_error (e : ε) : verdict (.error e : Except ε α) = .error e := rfl

theorem verdict_eq_error_iff {x : Except ε α} {e : ε} : verdict x = .error e ↔ x = .error e := by
  cases x <;> simp

theorem verdict_eq_ok_iff {x : Except ε α} : verdict x = .ok () ↔ ∃ a, x = .ok a := by
  cases x <;> simp

/-- Two results of one verdict are the same error or both have a value. -/
theorem verdict_cases {x : Except ε α} {y : Except ε β} (h : verdict x = verdict y) :
    (∃ e, x = .error e ∧ y = .error e) ∨ ∃ a b, x = .ok a ∧ y = .ok b := by
  cases x with
  | error e => exact .inl ⟨e, rfl, verdict_eq_error_iff.1 h.symm⟩
  | ok a =>
    obtain ⟨b, there⟩ := verdict_eq_ok_iff.1 h.symm
    exact .inr ⟨a, b, rfl, there⟩

/-- Two answers that end in the same result. -/
theorem exists_of_snd_eq {x : α × ε} {y : β × ε} (h : x.2 = y.2) :
    ∃ a b r, x = (a, r) ∧ y = (b, r) :=
  ⟨x.1, y.1, x.2, rfl, by rw [h]⟩

end

/-- Two scopes lie in one unit and one function. -/
structure Scope.SamePlace (s t : Scope) : Prop where
  unit : s.unit = t.unit
  function : s.function = t.function

namespace Scope.SamePlace

variable {s t : Scope}

theorem place (h : s.SamePlace t) (segment : Segment) (index : UInt16) :
    segment.place s index = segment.place t index := by
  cases segment <;> simp only [Segment.place, h.unit]

theorem labelSymbol (h : s.SamePlace t) (name : String) :
    s.labelSymbol name = t.labelSymbol name := by
  rw [Scope.labelSymbol, Scope.labelSymbol, h.function, h.unit]

theorem userLabel (h : s.SamePlace t) (name : String) : s.userLabel name = t.userLabel name := by
  rw [Scope.userLabel, Scope.userLabel, h.labelSymbol]

/-- A command leads from one place to one place. -/
theorem next (h : s.SamePlace t) (c : Command) : (s.next c).SamePlace (t.next c) := by
  cases c with
  | operate op => cases op <;> exact ⟨h.unit, h.function⟩
  | function name localCount =>
    simp only [Scope.next]
    split <;> exact ⟨h.unit, rfl⟩
  | call => exact ⟨h.unit, h.function⟩
  | _ => exact h

/-- The same commands are refused in one place, for the same reasons. -/
theorem verdict_block (h : s.SamePlace t) (c : Command) :
    verdict (c.block s) = verdict (c.block t) := by
  cases c with
  | operate op => rfl
  | push segment index => simp only [Command.block, pushBlock, h.place]
  | pop segment index => simp only [Command.block, popBlock, h.place]
  | label name => simp only [Command.block, h.userLabel]
  | goto name => simp only [Command.block, h.userLabel]
  | ifGoto name => simp only [Command.block, h.userLabel]
  | function name localCount =>
    simp only [Command.block, functionBlock]
    cases checkUserName name with
    | error r => rfl
    | ok _ =>
      cases checkIndex .locals localCount maxAddress with
      | error r => rfl
      | ok _ =>
        by_cases none : localCount = 0
        · simp only [if_pos none]
        · simp only [if_neg none]
          rfl
  | call name argCount =>
    simp only [Command.block, callBlock]
    cases checkUserName name with
    | error r => rfl
    | ok _ =>
      by_cases many : argCount.toNat + frameSize.toNat > maxAddress.toNat
      · simp only [if_pos many]
      · simp only [if_neg many]
        rfl
  | ret => rfl

end Scope.SamePlace

/-! ## Writing -/

namespace Writer

variable {w w' : Writer Page}

/-- On a page, a block is written unless its command is refused. -/
theorem writeBlock_snd (w : Writer Page) (c : Command) :
    (w.writeBlock c).2 = (verdict (c.block w.scope)).mapError .invalidOperand := by
  unfold writeBlock
  cases c.block w.scope with
  | error r => rfl
  | ok effects =>
    obtain ⟨_, done, -⟩ := perform_page w effects
    simp only [done]
    rfl

theorem writeBlock_snd_congr (h : w.scope.SamePlace w'.scope) (c : Command) :
    (w.writeBlock c).2 = (w'.writeBlock c).2 := by
  rw [writeBlock_snd, writeBlock_snd, h.verdict_block]

theorem write_snd_congr (h : w.scope.SamePlace w'.scope) (c : Command) :
    (w.write c).2 = (w'.write c).2 := by
  obtain ⟨v, done, -, scope, -⟩ := note_page w c.text
  obtain ⟨v', done', -, scope', -⟩ := note_page w' c.text
  rw [write, write, done, done']
  exact writeBlock_snd_congr (by rwa [scope, scope']) c

theorem bootstrap_snd_congr (h : w.scope.SamePlace w'.scope) (stackBase : UInt16) (entry : String) :
    (w.bootstrap stackBase entry).2 = (w'.bootstrap stackBase entry).2 := by
  obtain ⟨v, done, -, scope, -⟩ := note_page w "bootstrap"
  obtain ⟨v', done', -, scope', -⟩ := note_page w' "bootstrap"
  obtain ⟨u, set, -, place, -⟩ := perform_page v (emitAll (Code.setStack stackBase))
  obtain ⟨u', set', -, place', -⟩ := perform_page v' (emitAll (Code.setStack stackBase))
  rw [foldl_after_emitAll] at place place'
  unfold bootstrap
  split
  · rfl
  · simp only [done, done', andThen, set, set']
    exact writeBlock_snd_congr (by rwa [place, place', scope, scope']) _

end Writer

namespace Translator

/-- Whether lines are written does not depend on what was written before. -/
theorem writeLines_snd_congr {unit : String} {w w' : Writer Page} (h : w.scope.SamePlace w'.scope)
    (done : Nat) (lines : List SourceLine) :
    (writeLines unit done w lines).2 = (writeLines unit done w' lines).2 := by
  induction lines generalizing w w' done with
  | nil => rfl
  | cons line lines ih =>
    rw [writeLines, writeLines]
    cases Command.parse line.text with
    | error e => rfl
    | ok c =>
      dsimp only
      obtain ⟨v, v', result, first, second⟩ := exists_of_snd_eq (Writer.write_snd_congr h c)
      rw [first, second]
      cases result with
      | error e => rfl
      | ok u =>
        refine ih ?_ (done + 1)
        rw [(Writer.write_wrote first).scope, (Writer.write_wrote second).scope]
        exact h.next c

/-- Whether units are translated does not depend on what was translated before. -/
theorem translateUnits_snd_congr (t t' : Translator Page) (units : List (String × String)) :
    (t.translateUnits units).2 = (t'.translateUnits units).2 := by
  induction units generalizing t t' with
  | nil => rfl
  | cons unit units ih =>
    obtain ⟨unit, source⟩ := unit
    have place : (t.writer.setUnit unit).scope.SamePlace (t'.writer.setUnit unit).scope :=
      ⟨rfl, rfl⟩
    have same : (t.translateSource unit source).2 = (t'.translateSource unit source).2 := by
      rw [translateSource_eq, translateSource_eq]
      exact writeLines_snd_congr place 0 _
    obtain ⟨v, v', result, first, second⟩ := exists_of_snd_eq same
    rw [translateUnits, translateUnits, first, second]
    cases result with
    | error e => rfl
    | ok n => exact ih v v'

/-- Units are translated one list after the other. -/
theorem translateUnits_append (t : Translator Page) (us vs : List (String × String)) :
    t.translateUnits (us ++ vs) =
      match t.translateUnits us with
      | (t, .ok ()) => t.translateUnits vs
      | (t, .error e) => (t, .error e) := by
  induction us generalizing t with
  | nil => rfl
  | cons unit us ih =>
    obtain ⟨unit, source⟩ := unit
    rw [List.cons_append, translateUnits, translateUnits]
    cases t.translateSource unit source with
    | mk v result =>
      cases result with
      | error e => rfl
      | ok n => exact ih v

end Translator

theorem translateOnto_snd_congr {config config' : Config} (entry : config.entry = config'.entry)
    (base : config.stackBase = config'.stackBase) (units : List (String × String))
    (bootstrap : Bool) :
    (translateOnto (.new Page.empty config) units bootstrap).2 =
      (translateOnto (.new Page.empty config') units bootstrap).2 := by
  cases bootstrap with
  | false => exact Translator.translateUnits_snd_congr _ _ units
  | true =>
    have place : (Writer.new Page.empty config.annotate).scope.SamePlace
        (Writer.new Page.empty config'.annotate).scope := ⟨rfl, rfl⟩
    have same := Writer.bootstrap_snd_congr place config.stackBase config.entry
    obtain ⟨v, v', result, first, second⟩ := exists_of_snd_eq same
    simp only [translateOnto, if_pos, Translator.new, Translator.bootstrap, ← entry, ← base, first,
      second]
    cases result with
    | error e => rfl
    | ok u => exact Translator.translateUnits_snd_congr _ _ units

/-- The verdict on a translation is that on its units. -/
theorem verdict_translateSources (units : List (String × String)) (bootstrap : Bool)
    (config : Config) :
    verdict (translateSources units bootstrap config) =
      (translateOnto (.new Page.empty config) units bootstrap).2 := by
  rw [translateSources, translate]
  cases translateOnto (.new Page.empty config) units bootstrap with
  | mk t result => cases result <;> rfl

/-- Notes have no part in whether, and why not, a batch is translated. -/
theorem verdict_translateSources_congr {config config' : Config}
    (entry : config.entry = config'.entry) (base : config.stackBase = config'.stackBase)
    (units : List (String × String)) (bootstrap : Bool) :
    verdict (translateSources units bootstrap config) =
      verdict (translateSources units bootstrap config') := by
  rw [verdict_translateSources, verdict_translateSources,
    translateOnto_snd_congr entry base units bootstrap]

/-- A batch without bootstrap fails where its first part does, and else where its second part
does. -/
theorem verdict_translateSources_append (us vs : List (String × String)) (config : Config) :
    verdict (translateSources (us ++ vs) false config) =
      (verdict (translateSources us false config)).bind fun _ =>
        verdict (translateSources vs false config) := by
  simp only [verdict_translateSources, translateOnto, Bool.false_eq_true, if_false,
    Translator.translateUnits_append]
  cases Translator.translateUnits (.new Page.empty config) us with
  | mk t result =>
    cases result with
    | error e => rfl
    | ok u => exact Translator.translateUnits_snd_congr _ _ vs

end HackPlatform.Vm
