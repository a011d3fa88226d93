import HackPlatform.Proofs.Vm.Renumber
import HackPlatform.Proofs.Vm.Verdict

/-!
# Translation in parts

The blocks of a unit depend on the units before it through the number of labels made there, and
through nothing else. So a list of units can be translated in two parts, if the numbers in the text
of the second are raised by the number of labels that the first makes.
-/

namespace HackPlatform.Vm

open Asm (Statement)

/-- The number of times that units make labels. -/
def labelsMade (units : List (String × String)) : Nat :=
  (units.flatMap fun unit => commandsOf (sourceLines unit.2)).countP Command.makesLabels

namespace Scope

theorem labelCount_run (s : Scope) (commands : List Command) :
    (s.run commands).labelCount = s.labelCount + commands.countP Command.makesLabels := by
  induction commands generalizing s with
  | nil => rfl
  | cons c commands ih =>
    have first : (s.run (c :: commands)).labelCount = ((s.next c).run commands).labelCount := rfl
    rw [first, ih, labelCount_next, List.countP_cons]
    omega

/-- The scope with more labels made before. -/
def raise (k : Nat) (s : Scope) : Scope :=
  { s with labelCount := s.labelCount + k }

theorem raise_next (k : Nat) (s : Scope) (c : Command) :
    (s.raise k).next c = (s.next c).raise k := by
  have tick : (s.raise k).tick = s.tick.raise k := by
    simp only [raise, Scope.tick, Nat.add_right_comm]
  cases c with
  | operate op => cases op <;> first | exact tick | rfl
  | function name localCount =>
    by_cases none : localCount = 0
    · simp only [next, if_pos none, raise]
    · simp only [next, if_neg none, raise, Nat.add_right_comm]
  | call => exact tick
  | _ => rfl

theorem renumber_labelSymbol (k : Nat) (s : Scope) (name : String) :
    (s.labelSymbol name).renumber k = s.labelSymbol name := by
  unfold labelSymbol
  split <;> rfl

end Scope

/-- More labels made before a block raise the numbers in it. -/
theorem Command.code_raise (k : Nat) (s : Scope) (c : Command) :
    c.code (s.raise k) = (c.code s).map (Statement.map (Symbol.renumber k)) := by
  have same (name : String) : (s.raise k).labelSymbol name = s.labelSymbol name := rfl
  cases c with
  | operate op => cases op <;> rfl
  | push segment index => cases segment <;> rfl
  | pop segment index => cases segment <;> rfl
  | function name localCount =>
    by_cases none : localCount = 0
    · simp only [code, if_pos none]
      rfl
    · simp only [code, if_neg none]
      rfl
  | label name | goto name =>
    simp [code, same, Statement.map, Statement.branch, s.renumber_labelSymbol]
  | ifGoto name =>
    simp only [code, same, List.map_append, List.map_cons, Statement.map, s.renumber_labelSymbol]
    rfl
  | _ => rfl

/-! ## Outlines -/

/-- The block when more labels were made before. -/
def Site.raise (k : Nat) (s : Site) : Site :=
  { s with scope := s.scope.raise k }

theorem Site.lines_raise (k : Nat) (s : Site) :
    (s.raise k).lines = s.lines.map (Line.renumber k) := by
  have code : (s.raise k).code = s.code.map (Statement.map (Symbol.renumber k)) := by
    obtain ⟨scope, note, task⟩ := s
    cases task with
    | setStack base => rfl
    | command c => exact c.code_raise k scope
  rw [lines, lines, code, List.map_append, List.map_map, List.map_map, List.map_map]
  rfl

theorem sitesFrom_raise (annotate : Bool) (k : Nat) (s : Scope) (commands : List Command) :
    sitesFrom annotate (s.raise k) commands =
      (sitesFrom annotate s commands).map (Site.raise k) := by
  induction commands generalizing s with
  | nil => rfl
  | cons c commands ih =>
    rw [sitesFrom, sitesFrom, List.map_cons, s.raise_next, ih]
    rfl

theorem unitSites_raise (annotate : Bool) (k count : Nat) (units : List (String × String)) :
    unitSites annotate (count + k) units = (unitSites annotate count units).map (Site.raise k) := by
  induction units generalizing count with
  | nil => rfl
  | cons unit units ih =>
    have start : unitScope unit.1 (count + k) = (unitScope unit.1 count).raise k := rfl
    rw [unitSites, unitSites, start, sitesFrom_raise, List.map_append, ← ih, Scope.labelCount_run,
      Scope.labelCount_run]
    simp only [Scope.raise, Nat.add_right_comm]

theorem unitSites_append (annotate : Bool) (count : Nat) (us vs : List (String × String)) :
    unitSites annotate count (us ++ vs) =
      unitSites annotate count us ++ unitSites annotate (count + labelsMade us) vs := by
  induction us generalizing count with
  | nil => rfl
  | cons unit us ih =>
    have made : labelsMade (unit :: us) =
        (commandsOf (sourceLines unit.2)).countP Command.makesLabels + labelsMade us := by
      rw [labelsMade, List.flatMap_cons, List.countP_append]
      rfl
    rw [List.cons_append, unitSites, unitSites, ih, List.append_assoc, made, ← Nat.add_assoc,
      Scope.labelCount_run]
    rfl

/-- The blocks of a second part are those that it has alone, raised. -/
theorem outline_append (us vs : List (String × String)) (config : Config) :
    outline (us ++ vs) false config =
      outline us false config ++ (outline vs false config).map (Site.raise (labelsMade us)) := by
  show unitSites config.annotate 0 (us ++ vs) =
    unitSites config.annotate 0 us ++
      (unitSites config.annotate 0 vs).map (Site.raise (labelsMade us))
  rw [unitSites_append, unitSites_raise]

/-- A page whose lines are those of one page and then those of another. -/
theorem Page.text_append {page front back : Page}
    (h : page.lines.toList = front.lines.toList ++ back.lines.toList) :
    page.text = front.text ++ back.text := by
  rw [← String.toList_inj, String.toList_append, toList_text, toList_text, toList_text, h,
    List.map_append, List.flatMap_append]

/-- In the text of a translation, the names that are written like made labels are these. -/
theorem renumberText_translated {units : List (String × String)} {bootstrap : Bool}
    {config : Config} {page : Page} (h : translate units bootstrap config = .ok page) (k : Nat) :
    renumberText k page.text = (page.renumber k).text := by
  obtain ⟨lines, allowed⟩ := translate_outline h
  have sound := outline_sound allowed
  refine renumberText_page ?_ ?_ k
  · rw [lines]
    exact outline_readable sound
  · rw [lines]
    intro st mem a named
    obtain ⟨s, member, mem⟩ := List.mem_flatMap.1 mem
    have inside : st ∈ s.code := by simpa [Site.lines] using mem
    exact ((sound s member).names (s.code_names st inside a named)).1

/-- The page of a batch has the lines of its first part and then those of its second part, with
their numbers raised. -/
theorem text_translate_append {us vs : List (String × String)} {config : Config}
    {front back page : Page} (first : translate us false config = .ok front)
    (second : translate vs false config = .ok back)
    (both : translate (us ++ vs) false config = .ok page) :
    page.text = front.text ++ (back.renumber (labelsMade us)).text := by
  refine Page.text_append ?_
  rw [(translate_outline both).1, outline_append, List.flatMap_append,
    ← (translate_outline first).1, Page.renumber, Array.toList_map, (translate_outline second).1,
    List.flatMap_map, List.map_flatMap]
  simp only [Site.lines_raise]

/-- A batch is translated in parts: it fails as its first part does, or else as its second part
does, and else its text is that of the first part and then that of the second, in which the numbers
of made labels, and nothing else, are raised by the number of labels that the first part makes. -/
theorem translateSources_append (us vs : List (String × String)) (config : Config) :
    translateSources (us ++ vs) false config =
        (do
          let front ← translateSources us false config
          let back ← translateSources vs false config
          return front ++ renumberText (labelsMade us) back) ∧
      (translateSources vs false config).map (renumberText (labelsMade us)) =
        (translate vs false config).map fun page => (page.renumber (labelsMade us)).text := by
  have verdicts := verdict_translateSources_append us vs config
  constructor
  · cases first : translateSources us false config with
    | error e =>
      rw [first] at verdicts
      exact verdict_eq_error_iff.1 verdicts
    | ok front =>
      cases second : translateSources vs false config with
      | error e =>
        rw [first, second] at verdicts
        exact verdict_eq_error_iff.1 verdicts
      | ok back =>
        rw [first, second] at verdicts
        obtain ⟨text, both⟩ := verdict_eq_ok_iff.1 verdicts
        obtain ⟨page, written, rfl⟩ := translateSources_eq_ok first
        obtain ⟨page', written', rfl⟩ := translateSources_eq_ok second
        obtain ⟨whole, done, rfl⟩ := translateSources_eq_ok both
        rw [both, text_translate_append written written' done, ← renumberText_translated written']
        rfl
  · rw [translateSources]
    cases second : translate vs false config with
    | error e => rfl
    | ok back => exact congrArg Except.ok (renumberText_translated second _)

end HackPlatform.Vm
