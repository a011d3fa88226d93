import HackPlatform.Proofs.Vm.Image

/-!
# Static cells

The name of a static cell is put together from its unit and its index, and the assembler gives it a
cell of its own unless a label is written the same way. A function or a label of the source may
be: names of functions may hold dots, and names of units the reserved character. Then the access
goes to the address of the label, whatever lies there in data memory.
-/

namespace HackPlatform.Vm

open Asm (Statement)

/-- A block pushes or pops a static cell of its unit. -/
def AccessesAt (sites : List Site) (k : Nat) (unit : String) (index : UInt16) : Prop :=
  ∃ s, sites[k]? = some s ∧ s.scope.unit = unit ∧
    (s.task = .command (.push .static index) ∨ s.task = .command (.pop .static index))

/-- A name was given a variable cell. -/
def IsVariable (p : Asm.Program) (a : Symbol) : Prop :=
  (a.text, addressOf p a) ∈ p.symbols.vars

/-- A block begins a function or declares a label that is written as a text. -/
def Site.Declares (s : Site) (text : String) : Prop :=
  (∃ f locals, s.task = .command (.function f locals) ∧ f = text) ∨
    ∃ name, s.task = .command (.label name) ∧ (s.scope.labelSymbol name).text = text

/-- A function or a label of the source is written like a static cell. -/
def Clashes (sites : List Site) (unit : String) (index : UInt16) : Prop :=
  ∃ s ∈ sites, s.Declares (Symbol.static unit index).text

theorem AccessesAt.reference {sites : List Site} {k : Nat} {unit : String} {index : UInt16}
    (h : AccessesAt sites k unit index) : .reference (.static unit index) ∈ codeOf sites := by
  obtain ⟨⟨scope, note, task⟩, site, rfl, rfl | rfl⟩ := h
  · refine List.mem_flatMap.2 ⟨_, List.mem_of_getElem? site, ?_⟩
    simp [Site.code, Command.code, Segment.placeOf, Code.push]
  · refine List.mem_flatMap.2 ⟨_, List.mem_of_getElem? site, ?_⟩
    simp [Site.code, Command.code, Segment.placeOf, Place.popCode, Code.popFixed]

theorem static_notMem_predefined (unit : String) (index v : UInt16) :
    ((Symbol.static unit index).text, v) ∉ Asm.predefined := by
  intro mem
  have all : ∀ row ∈ Asm.predefined, '.' ∉ row.1.toList := by decide
  refine all _ mem ?_
  rw [Symbol.toList_static]
  simp

/-- Only a label of the source can be written like a static cell. -/
theorem Site.declares_static_iff {s : Site} {unit : String} {index : UInt16} :
    s.Declares (Symbol.static unit index).text ↔
      ∃ a ∈ s.labels, a.text = (Symbol.static unit index).text := by
  obtain ⟨scope, note, task⟩ := s
  constructor
  · rintro (⟨f, locals, rfl, alike⟩ | ⟨name, rfl, alike⟩)
    · exact ⟨.function f, List.mem_cons_self, alike⟩
    · exact ⟨scope.labelSymbol name, List.mem_singleton.2 rfl, alike⟩
  · rintro ⟨a, mem, alike⟩
    cases task with
    | setStack base => cases mem
    | command c =>
      rcases Command.mem_labels mem with ⟨f, n, rfl, rfl⟩ | ⟨name, rfl, rfl⟩ | ⟨mark, number, rfl⟩
      · exact .inl ⟨f, n, rfl, alike⟩
      · exact .inr ⟨name, rfl, alike⟩
      · exact absurd alike.symm (Symbol.static_ne_made unit index mark number)

theorem clashes_iff {sites : List Site} {unit : String} {index : UInt16} :
    Clashes sites unit index ↔
      .label (Symbol.static unit index).text ∈ (codeOf sites).map (Statement.map Symbol.text) := by
  simp only [Clashes, Site.declares_static_iff, Site.mem_labels_iff, codeOf, List.mem_map,
    List.mem_flatMap]
  constructor
  · rintro ⟨s, member, a, mem, alike⟩
    exact ⟨.label a, ⟨s, member, mem⟩, congrArg Statement.label alike⟩
  · rintro ⟨st, ⟨s, member, mem⟩, alike⟩
    cases st with
    | label a => exact ⟨s, member, a, mem, Statement.label.inj alike⟩
    | reference a => cases alike
    | instr i => cases alike

namespace Image

variable {sites : List Site} {p : Asm.Program} (image : Image sites p)

include image

/-- A static cell that is used is a variable exactly when no label is written like it. -/
theorem isVariable_iff {k : Nat} {unit : String} {index : UInt16}
    (access : AccessesAt sites k unit index) :
    IsVariable p (.static unit index) ↔ ¬Clashes sites unit index := by
  have used : .reference (Symbol.static unit index).text ∈
      (codeOf sites).map (Statement.map Symbol.text) :=
    List.mem_map.2 ⟨_, access.reference, rfl⟩
  rw [clashes_iff, ← Asm.exists_mem_labelsFrom 0]
  constructor
  · rintro var ⟨position, label⟩
    exact (image.assembled.numbered.vars _ _ var).2 _ (.inr ⟨position, label, rfl⟩)
  · intro apart
    obtain (named | ⟨position, label, -⟩) | var := image.assembled.reference used
    · exact absurd named (static_notMem_predefined unit index _)
    · exact absurd ⟨position, label⟩ apart
    · exact var

theorem variable_bound {a : Symbol} (h : IsVariable p a) :
    16 ≤ addressOf p a ∧ addressOf p a < Asm.screenStart :=
  image.assembled.numbered.var_bound h

theorem variable_injective {unit unit' : String} {index index' : UInt16}
    (h : IsVariable p (.static unit index)) (h' : IsVariable p (.static unit' index')) :
    addressOf p (.static unit index) = addressOf p (.static unit' index') ↔
      unit = unit' ∧ index = index' := by
  constructor
  · intro same
    rw [IsVariable, ← same] at h'
    exact Symbol.static_injective (image.assembled.numbered.var_injective h h')
  · rintro ⟨rfl, rfl⟩
    rfl

/-- What is written like a label stands for the address of that label. -/
theorem address_label {k : Nat} {s : Site} {a b : Symbol} {front rest : List (Statement Symbol)}
    (site : sites[k]? = some s) (code : s.code = front ++ .label a :: rest)
    (alike : a.text = b.text) : addressOf p b = Asm.behind (startOf sites k) front := by
  have stands := image.stands site
  rw [code, Asm.stands_append] at stands
  rw [addressOf, ← alike]
  exact stands.2.1

end Image

/-- Static cells are private: each access goes to a variable cell, and two accesses to the same one
exactly when unit and index agree. -/
structure PrivateStatics (sites : List Site) (p : Asm.Program) : Prop where
  cell : ∀ k unit index, AccessesAt sites k unit index → IsVariable p (.static unit index) ∧
    16 ≤ addressOf p (.static unit index) ∧ addressOf p (.static unit index) < Asm.screenStart
  apart : ∀ k l unit unit' index index', AccessesAt sites k unit index →
    AccessesAt sites l unit' index' →
    (addressOf p (.static unit index) = addressOf p (.static unit' index') ↔
      unit = unit' ∧ index = index')

/-- Static cells are private exactly when no label is written like one that is used. Where one is,
the access goes to the address at which that label stands. -/
theorem privateStatics_iff {units : List (String × String)} {bootstrap : Bool} {config : Config}
    {text : String} {p : Asm.Program} (translated : translateSources units bootstrap config = .ok text)
    (assembled : Asm.assemble text = .ok p) :
    (PrivateStatics (outline units bootstrap config) p ↔
        ∀ k unit index, AccessesAt (outline units bootstrap config) k unit index →
          ¬Clashes (outline units bootstrap config) unit index) ∧
      ∀ (unit : String) (index : UInt16) (j : Nat) (s : Site) (a : Symbol)
        (front rest : List (Statement Symbol)), (outline units bootstrap config)[j]? = some s →
        s.code = front ++ .label a :: rest → a.text = (Symbol.static unit index).text →
        addressOf p (.static unit index) =
          Asm.behind (startOf (outline units bootstrap config) j) front := by
  have image := image_of_translation translated assembled
  refine ⟨⟨?_, ?_⟩, fun unit index j s a front rest site code alike => ?_⟩
  · intro cells k unit index access
    exact (image.isVariable_iff access).1 (cells.cell k unit index access).1
  · intro apart
    have own {k : Nat} {unit : String} {index : UInt16}
        (access : AccessesAt (outline units bootstrap config) k unit index) :
        IsVariable p (.static unit index) :=
      (image.isVariable_iff access).2 (apart k unit index access)
    refine ⟨fun k unit index access => ⟨own access, image.variable_bound (own access)⟩, ?_⟩
    intro k l unit unit' index index' access access'
    exact image.variable_injective (own access) (own access')
  · exact image.address_label site code alike

/-- Two units with a static cell of one index each. -/
def twoUnits : List (String × String) :=
  [("A", "push static 0"), ("B", "push static 0")]

theorem privateStatics_iff_two_units :
    ∃ text p, translateSources twoUnits false ⟨.auto, "Sys.init", 256, false⟩ = .ok text ∧
      Asm.assemble text = .ok p ∧
      PrivateStatics (outline twoUnits false ⟨.auto, "Sys.init", 256, false⟩) p := by
  obtain ⟨text, p, translated, assembled⟩ :=
    @exists_program twoUnits false ⟨.auto, "Sys.init", 256, false⟩ (by decide +kernel)
      (by decide +kernel)
  have pushes : ∀ s ∈ outline twoUnits false ⟨.auto, "Sys.init", 256, false⟩,
      s.task = .command (.push .static 0) := by
    decide +kernel
  refine ⟨text, p, translated, assembled, (privateStatics_iff translated assembled).1.2 ?_⟩
  rintro k unit index - ⟨s, member, ⟨f, locals, task, -⟩ | ⟨name, task, -⟩⟩
  · rw [pushes s member] at task
    cases task
  · rw [pushes s member] at task
    cases task

/-- A unit with a function that is written like the unit's static cell. -/
def dotted : List (String × String) :=
  [("Main", "function Main.0 0\npush static 0")]

/-- The only unit of this program calls nothing and jumps nowhere, and still its static cell is no
variable: an access goes to address zero, where the function starts. -/
theorem not_privateStatics_dotted :
    ∃ text p, translateSources dotted false ⟨.auto, "Sys.init", 256, false⟩ = .ok text ∧
      Asm.assemble text = .ok p ∧ (dotted.map Prod.fst).Nodup ∧
      Closed (outline dotted false ⟨.auto, "Sys.init", 256, false⟩) ∧
      AccessesAt (outline dotted false ⟨.auto, "Sys.init", 256, false⟩) 1 "Main" 0 ∧
      addressOf p (.static "Main" 0) = 0 ∧
      ¬PrivateStatics (outline dotted false ⟨.auto, "Sys.init", 256, false⟩) p := by
  obtain ⟨text, p, translated, assembled⟩ :=
    @exists_program dotted false ⟨.auto, "Sys.init", 256, false⟩ (by decide +kernel)
      (by decide +kernel)
  have image := image_of_translation translated assembled
  have sites : outline dotted false ⟨.auto, "Sys.init", 256, false⟩ =
      [⟨⟨"Main", none, 0⟩, none, .command (.function "Main.0" 0)⟩,
       ⟨⟨"Main", some "Main.0", 0⟩, none, .command (.push .static 0)⟩] := by
    decide +kernel
  have access : AccessesAt (outline dotted false ⟨.auto, "Sys.init", 256, false⟩) 1 "Main" 0 := by
    rw [sites]
    exact ⟨_, rfl, rfl, .inl rfl⟩
  let start : Site := ⟨⟨"Main", none, 0⟩, none, .command (.function "Main.0" 0)⟩
  have code : start.code = [] ++ .label (.function "Main.0") :: [] := rfl
  have address : addressOf p (.static "Main" 0) = 0 :=
    image.address_label (k := 0) (by rw [sites]; rfl) code (by decide)
  refine ⟨text, p, translated, assembled, by decide, ⟨?_, ?_⟩, access, address, fun cells => ?_⟩
  · rintro i f args ⟨s, site, task⟩
    have member := List.mem_of_getElem? site
    rw [sites] at member
    simp only [List.mem_cons, List.not_mem_nil, or_false] at member
    obtain rfl | rfl := member <;> cases task
  · rintro s member name task
    rw [sites] at member
    simp only [List.mem_cons, List.not_mem_nil, or_false] at member
    obtain rfl | rfl := member <;> simp at task
  · have low := (cells.cell 1 "Main" 0 access).2.1
    rw [address] at low
    exact absurd low (by decide)

end HackPlatform.Vm
