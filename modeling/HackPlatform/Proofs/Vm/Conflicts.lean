import HackPlatform.Proofs.Asm.Acceptance
import HackPlatform.Proofs.Vm.Labels
import HackPlatform.Proofs.Vm.Reading

/-!
# Conflicts between labels

The assembler reads whatever the translator writes. Where there is room for the words and variables,
a translation assembles unless the source begins a function twice, declares a label twice within one
scope, or gives a function a predefined name; then the assembler finds a duplicate label.
-/

namespace HackPlatform.Vm

open Asm (Statement definedNames statementsOf variableNames wordCount)

/-- The labels of blocks in order. -/
def labelsOf (sites : List Site) : List Symbol :=
  sites.flatMap Site.labels

theorem definedNames_code (s : Site) : definedNames s.code = s.labels := by
  have same : Statement.defined? = labelOf? := by
    funext st
    cases st <;> rfl
  rw [definedNames, same, s.code_labels]

/-- The names that the code of blocks defines are those of the labels, as they are written. -/
theorem definedNames_codeOf (sites : List Site) :
    definedNames ((codeOf sites).map (Statement.map Symbol.text)) =
      (labelsOf sites).map Symbol.text := by
  rw [Asm.definedNames_map]
  congr 1
  rw [definedNames, codeOf, List.filterMap_flatMap]
  exact congrArg (List.flatMap · sites) (funext definedNames_code)

/-- What makes the label of one block take the name of another, or a predefined name: two functions
have one name, a label is declared twice within one scope, or a function has a predefined name. -/
inductive Conflict (sites : List Site) : Prop
  | function {i j : Nat} {f : String} {n m : UInt16} (before : i < j)
    (first : TaskAt sites i (.command (.function f n)))
    (again : TaskAt sites j (.command (.function f m)))
  | label {i j : Nat} {s t : Site} (before : i < j) (first : sites[i]? = some s)
    (again : sites[j]? = some t) (same : SameLabel s t)
  | predefined {i : Nat} {f : String} {n : UInt16}
    (here : TaskAt sites i (.command (.function f n)))
    (named : f ∈ Asm.predefined.map Prod.fst)

/-- A label with the reserved character has no predefined name. -/
theorem notMem_predefined {name : String} (h : '$' ∈ name.toList) :
    name ∉ Asm.predefined.map Prod.fst := by
  have all : ∀ other ∈ Asm.predefined.map Prod.fst, '$' ∉ other.toList := by decide
  exact fun mem => all name mem h

theorem Scope.reserved_mem_labelSymbol (s : Scope) (name : String) :
    '$' ∈ (s.labelSymbol name).text.toList := by
  unfold labelSymbol
  split
  · rw [Symbol.toList_inFunction]
    simp
  · rw [Symbol.toList_inUnit]
    simp

/-- Only a function's label can have a predefined name. -/
theorem Site.function_of_mem_predefined {s : Site} {a : Symbol} (mem : a ∈ s.labels)
    (named : a.text ∈ Asm.predefined.map Prod.fst) :
    ∃ f n, s.task = .command (.function f n) ∧ a = .function f := by
  obtain function | ⟨name, -, rfl⟩ | ⟨mark, n, rfl⟩ := Site.mem_labels mem
  · exact function
  · exact absurd named (notMem_predefined (s.scope.reserved_mem_labelSymbol name))
  · refine absurd named (notMem_predefined ?_)
    rw [Symbol.toList_made]
    exact List.mem_cons_self

/-- A made label is none of a later block. -/
theorem Site.made_notMem_later {s t : Site} {mark : Mark} {n : Nat}
    (before : s.after ≤ t.scope.labelCount) (here : .made mark n ∈ s.labels) :
    .made mark n ∉ t.labels := by
  intro there
  obtain ⟨-, rfl, grows⟩ := made_mem_labels (s.code_names _ (mem_labels_iff.1 here) _ rfl)
  obtain ⟨-, same, -⟩ := made_mem_labels (t.code_names _ (mem_labels_iff.1 there) _ rfl)
  omega

/-- Labels of one block are written differently. -/
theorem Site.Sound.labels_pairwise {s : Site} (h : s.Sound) :
    s.labels.Pairwise fun a b => a.text ≠ b.text :=
  s.labels_nodup.imp_of_mem fun ha hb apart alike =>
    apart (Symbol.text_injective (h.label ha) (h.label hb) alike)

/-- Labels of two blocks that are written alike are in conflict. -/
theorem sameSource_of_text {s t : Site} {a b : Symbol} (hs : s.Sound) (ht : t.Sound)
    (before : s.after ≤ t.scope.labelCount) (ha : a ∈ s.labels) (hb : b ∈ t.labels)
    (alike : a.text = b.text) : SameFunction s t a a ∨ SameLabel s t := by
  obtain rfl := Symbol.text_injective (hs.label ha) (ht.label hb) alike
  refine sameSource ha hb fun mark n made => ?_
  subst made
  exact Site.made_notMem_later before ha hb

/-- The labels of blocks can all be entered when no two are in conflict. -/
theorem enterable_of_not_conflict {sites : List Site} (counted : Counted sites)
    (sound : ∀ s ∈ sites, s.Sound) (h : ¬Conflict sites) :
    Asm.Enterable (fun name => (Asm.predefined.lookup name).isSome)
      ((labelsOf sites).map Symbol.text) := by
  refine ⟨?_, ?_⟩
  · intro name mem
    obtain ⟨a, there, rfl⟩ := List.mem_map.1 mem
    obtain ⟨s, member, mem⟩ := List.mem_flatMap.1 there
    rw [Bool.eq_false_iff, ne_eq, ← Asm.mem_predefined_iff]
    intro named
    obtain ⟨f, n, task, rfl⟩ := Site.function_of_mem_predefined mem named
    obtain ⟨i, site⟩ := List.getElem?_of_mem member
    exact h (.predefined ⟨s, site, task⟩ named)
  · refine List.pairwise_map.2 (List.pairwise_flatMap.2 ⟨?_, ?_⟩)
    · exact fun s member => (sound s member).labels_pairwise
    · refine List.pairwise_iff_getElem.2 fun i j hi hj before a ha b hb alike => ?_
      have grows := List.pairwise_iff_getElem.1 counted i j hi hj before
      have first := List.getElem?_eq_getElem hi
      have again := List.getElem?_eq_getElem hj
      obtain ⟨f, n, m, task, task', -⟩ | same := sameSource_of_text
        (sound _ (List.getElem_mem hi)) (sound _ (List.getElem_mem hj)) grows ha hb alike
      · exact h (.function before ⟨_, first, task⟩ ⟨_, again, task'⟩)
      · exact h (.label before first again same)

/-- Labels of two blocks that can be entered are written differently. -/
theorem text_ne_of_enterable {sites : List Site} {known : String → Bool}
    (h : Asm.Enterable known ((labelsOf sites).map Symbol.text)) {i j : Nat} {s t : Site}
    {a b : Symbol} (before : i < j) (first : sites[i]? = some s) (again : sites[j]? = some t)
    (ha : a ∈ s.labels) (hb : b ∈ t.labels) : a.text ≠ b.text := by
  have apart := (List.pairwise_flatMap.1 (List.pairwise_map.1 h.distinct)).2
  obtain ⟨hi, rfl⟩ := List.getElem?_eq_some_iff.1 first
  obtain ⟨hj, rfl⟩ := List.getElem?_eq_some_iff.1 again
  exact List.pairwise_iff_getElem.1 apart i j hi hj before a ha b hb

theorem Site.function_mem_labels {s : Site} {f : String} {n : UInt16}
    (task : s.task = .command (.function f n)) : .function f ∈ s.labels := by
  rw [labels, task]
  exact List.mem_cons_self

theorem Site.label_mem_labels {s : Site} {name : String}
    (task : s.task = .command (.label name)) : s.scope.labelSymbol name ∈ s.labels := by
  rw [labels, task]
  exact List.mem_cons_self

theorem not_conflict_of_enterable {sites : List Site}
    (h : Asm.Enterable (fun name => (Asm.predefined.lookup name).isSome)
      ((labelsOf sites).map Symbol.text)) : ¬Conflict sites := by
  intro conflict
  cases conflict with
  | function before first again =>
    obtain ⟨s, first, task⟩ := first
    obtain ⟨t, again, task'⟩ := again
    exact text_ne_of_enterable h before first again (Site.function_mem_labels task)
      (Site.function_mem_labels task') rfl
  | label before first again same =>
    obtain ⟨name, task, task', scopes⟩ := same
    refine text_ne_of_enterable h before first again (Site.label_mem_labels task)
      (Site.label_mem_labels task') ?_
    rw [scopes.labelSymbol]
  | predefined here named =>
    obtain ⟨s, site, task⟩ := here
    have mem := List.mem_flatMap.2 ⟨s, List.mem_of_getElem? site, Site.function_mem_labels task⟩
    have fresh : (Asm.predefined.lookup _).isSome = false := h.fresh _ (List.mem_map_of_mem mem)
    exact absurd (Asm.mem_predefined_iff.1 named) (Bool.eq_false_iff.1 fresh)

theorem enterable_iff {sites : List Site} (counted : Counted sites)
    (sound : ∀ s ∈ sites, s.Sound) :
    Asm.Enterable (fun name => (Asm.predefined.lookup name).isSome)
      ((labelsOf sites).map Symbol.text) ↔ ¬Conflict sites :=
  ⟨not_conflict_of_enterable, enterable_of_not_conflict counted sound⟩

/-- The output of a translation always reads, and where its words and variables have room it
assembles unless labels are in conflict; then a duplicate label is found. -/
theorem assembles_iff_no_conflict {units : List (String × String)} {bootstrap : Bool}
    {config : Config} {text : String} (h : translateSources units bootstrap config = .ok text) :
    ∃ located, Asm.readSource text = .ok located ∧
      (∀ e, Asm.assemble text = .error e → ¬e.OfLine) ∧
      (wordCount (statementsOf located) ≤ 32767 →
        (variableNames (statementsOf located)).length ≤ 16368 →
        ((∃ p, Asm.assemble text = .ok p) ↔ ¬Conflict (outline units bootstrap config)) ∧
          (Conflict (outline units bootstrap config) →
            ∃ line name, Asm.assemble text = .error (.duplicateLabel line name))) := by
  obtain ⟨sound, located, read, statements⟩ := readSource_outline h
  have passes : Asm.assemble text = Asm.assembleStatements located := by
    rw [Asm.assemble, read]
    rfl
  refine ⟨located, read, ?_, ?_⟩
  · rw [passes]
    exact fun e => Asm.assembleStatements_error
  · intro words vars
    have fits : 0 + wordCount (statementsOf located) ≤ maxAddress.toNat := by
      rw [Nat.zero_add]
      exact words
    have roomy : Asm.Roomy (statementsOf located) :=
      ⟨Nat.le_succ_of_le words, Asm.labelsFit_of_wordCount fits, vars⟩
    have cases := Asm.assembleStatements_cases roomy
    rw [statements, definedNames_codeOf, enterable_iff (outline_counted ..) sound] at cases
    rw [passes]
    obtain ⟨none, accepted⟩ | ⟨some, line, name, failed⟩ := cases
    · exact ⟨iff_of_true accepted none, fun conflict => absurd conflict none⟩
    · refine ⟨iff_of_false ?_ some, fun _ => ⟨line, name, failed⟩⟩
      rintro ⟨p, accepted⟩
      rw [failed] at accepted
      cases accepted

/-- A unit that declares a label of one name within and outside a function. -/
def apartLabels : List (String × String) :=
  [("A", "label x\nfunction A.x 1\nlabel x\npush static 0")]

/-- Two units of one name that each declare a label of one name outside functions. -/
def alikeLabels : List (String × String) :=
  [("A", "label x\nfunction f 0\nlabel x"), ("A", "label x")]

theorem assembles_iff_no_conflict_labels :
    (∃ text p, translateSources apartLabels false ⟨.auto, "Sys.init", 256, false⟩ = .ok text ∧
      Asm.assemble text = .ok p) ∧
    ∃ text line name,
      translateSources alikeLabels false ⟨.auto, "Sys.init", 256, false⟩ = .ok text ∧
      Asm.assemble text = .error (.duplicateLabel line name) := by
  let config : Config := ⟨.auto, "Sys.init", 256, false⟩
  have outcome (units : List (String × String))
      (translates : (translateSources units false config).toOption.isSome = true)
      (words : wordCount ((codeOf (outline units false config)).map (Statement.map Symbol.text)) ≤
        32767)
      (vars : (variableNames ((codeOf (outline units false config)).map
        (Statement.map Symbol.text))).length ≤ 16368) :
      ∃ text, translateSources units false config = .ok text ∧
        ((∃ p, Asm.assemble text = .ok p) ↔ ¬Conflict (outline units false config)) ∧
        (Conflict (outline units false config) →
          ∃ line name, Asm.assemble text = .error (.duplicateLabel line name)) := by
    obtain ⟨text, written⟩ := Option.isSome_iff_exists.1 translates
    have written := eq_ok_of_toOption written
    obtain ⟨-, located, read, statements⟩ := readSource_outline written
    obtain ⟨located', read', -, roomy⟩ := assembles_iff_no_conflict written
    cases read.symm.trans read'
    rw [statements] at roomy
    exact ⟨text, written, roomy words vars⟩
  constructor
  · obtain ⟨text, written, accepted, -⟩ :=
      outcome apartLabels (by decide +kernel) (by decide +kernel) (by decide +kernel)
    have apart : ¬Conflict (outline apartLabels false config) :=
      not_conflict_of_enterable ⟨by decide +kernel, by decide +kernel⟩
    obtain ⟨p, assembled⟩ := accepted.2 apart
    exact ⟨text, p, written, assembled⟩
  · obtain ⟨text, written, -, failed⟩ :=
      outcome alikeLabels (by decide +kernel) (by decide +kernel) (by decide +kernel)
    have sites : outline alikeLabels false config =
        [⟨⟨"A", none, 0⟩, none, .command (.label "x")⟩,
         ⟨⟨"A", none, 0⟩, none, .command (.function "f" 0)⟩,
         ⟨⟨"A", some "f", 0⟩, none, .command (.label "x")⟩,
         ⟨⟨"A", none, 0⟩, none, .command (.label "x")⟩] := by
      decide +kernel
    have clash : Conflict (outline alikeLabels false config) := by
      rw [sites]
      exact .label (i := 0) (j := 3) (by decide) rfl rfl ⟨"x", rfl, rfl, rfl, fun _ => rfl⟩
    obtain ⟨line, name, error⟩ := failed clash
    exact ⟨text, line, name, written, error⟩

end HackPlatform.Vm
