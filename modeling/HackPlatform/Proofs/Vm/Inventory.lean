import HackPlatform.Proofs.Asm.Resolution
import HackPlatform.Proofs.Vm.Conflicts
import HackPlatform.Proofs.Vm.Simulation

/-!
# The symbols of a closed program

For the assembler a label that is missing is one more variable. In a closed program none is missing:
closed means that each label a block refers to is defined, for the made labels always are. So the
variables are the static cells that are used, and the labels those of the blocks.
-/

namespace HackPlatform.Vm

open Asm (Statement usedNames definedNames isFixed rows variableNames)

/-- Whether a name is that of a static cell. -/
def Symbol.isStatic : Symbol → Bool
  | static .. => true
  | _ => false

/-- Whether a name is one that blocks define. -/
def Symbol.isLabel : Symbol → Bool
  | register _ | static .. => false
  | _ => true

/-- Whether a label was made by the translator. -/
def Symbol.isMade : Symbol → Bool
  | made .. => true
  | _ => false

namespace Task

/-- Whether a task is a comparison. -/
def compares : Task → Bool
  | command (.operate (.compare _)) => true
  | _ => false

/-- Whether a task is a call. -/
def calls : Task → Bool
  | command (.call ..) => true
  | _ => false

/-- Whether a task is the start of a function with local variables. -/
def hasLocals : Task → Bool
  | command (.function _ locals) => locals ≠ 0
  | _ => false

end Task

/-- The function or label of the source that a block declares, if it does. -/
def Site.declared? (s : Site) : Option Symbol :=
  match s.task with
  | .command (.function f _) => some (.function f)
  | .command (.label name) => some (s.scope.labelSymbol name)
  | _ => none

/-- The static cell that a block accesses, if it does. -/
def Site.static? (s : Site) : Option Symbol :=
  match s.task with
  | .command (.push .static index) => some (.static s.scope.unit index)
  | .command (.pop .static index) => some (.static s.scope.unit index)
  | _ => none

/-- The names of the static cells that are used, each once, in the order of their first uses. -/
def usedStatics (sites : List Site) : List String :=
  ((sites.filterMap Site.static?).map Symbol.text).eraseDups

theorem Scope.isStatic_labelSymbol (s : Scope) (name : String) :
    (s.labelSymbol name).isStatic = false := by
  unfold labelSymbol
  split <;> rfl

theorem Scope.isLabel_labelSymbol (s : Scope) (name : String) :
    (s.labelSymbol name).isLabel = true := by
  unfold labelSymbol
  split <;> rfl

/-- A block refers to a static cell once, if at all. -/
theorem Site.statics_of_code (s : Site) :
    (usedNames s.code).filter Symbol.isStatic = s.static?.toList := by
  obtain ⟨scope, note, task⟩ := s
  cases task with
  | setStack base => rfl
  | command c =>
    cases c with
    | operate op => cases op <;> rfl
    | push segment index => cases segment <;> rfl
    | pop segment index => cases segment <;> rfl
    | goto name =>
      show [scope.labelSymbol name].filter Symbol.isStatic = []
      simp [scope.isStatic_labelSymbol]
    | ifGoto name =>
      have register : (Symbol.register .sp).isStatic = false := rfl
      show [.register .sp, scope.labelSymbol name].filter Symbol.isStatic = []
      simp [scope.isStatic_labelSymbol, register]
    | function name locals =>
      show (usedNames (if locals = 0 then [] else Code.clear locals scope.labelCount)).filter
        Symbol.isStatic = []
      split <;> rfl
    | _ => rfl

theorem usedNames_codeOf (sites : List Site) :
    usedNames (codeOf sites) = sites.flatMap fun s => usedNames s.code := by
  rw [usedNames, codeOf, List.filterMap_flatMap]
  rfl

theorem statics_of_codeOf (sites : List Site) :
    (usedNames (codeOf sites)).filter Symbol.isStatic = sites.filterMap Site.static? := by
  rw [usedNames_codeOf, List.filter_flatMap, List.filterMap_eq_flatMap_toList]
  exact congrArg (List.flatMap · sites) (funext Site.statics_of_code)

/-- A name that is no register comes from the block's command. -/
theorem Site.exists_command {s : Site} {a : Symbol} (named : s.Names a)
    (other : ∀ r, a ≠ .register r) : ∃ c, s.task = .command c ∧ c.Names s.scope a := by
  obtain ⟨scope, note, task⟩ := s
  cases task with
  | setStack base =>
    obtain ⟨r, same⟩ := named
    exact absurd same (other r)
  | command c => exact ⟨c, rfl, named⟩

variable {sites : List Site}

theorem mem_labelsOf {s : Site} {a : Symbol} (member : s ∈ sites) (mem : a ∈ s.labels) :
    a ∈ labelsOf sites :=
  List.mem_flatMap.2 ⟨s, member, mem⟩

theorem mem_usedNames_of_code {s : Site} {a : Symbol} (member : s ∈ sites)
    (mem : .reference a ∈ s.code) : a ∈ usedNames (codeOf sites) :=
  Asm.mem_usedNames.2 (List.mem_flatMap.2 ⟨s, member, mem⟩)

/-! ## Closed programs -/

theorem Closed.function_mem_labelsOf (closed : Closed sites) {s : Site} {f : String} {n : UInt16}
    (member : s ∈ sites)
    (named : s.task = .command (.function f n) ∨ s.task = .command (.call f n)) :
    .function f ∈ labelsOf sites := by
  obtain here | call := named
  · exact mem_labelsOf member (Site.function_mem_labels here)
  · obtain ⟨i, site⟩ := List.getElem?_of_mem member
    obtain ⟨j, locals, t, there, task⟩ := closed.calls i f n ⟨s, site, call⟩
    exact mem_labelsOf (List.mem_of_getElem? there) (Site.function_mem_labels task)

theorem Closed.target_mem_labelsOf (closed : Closed sites) {s : Site} {name : String}
    (member : s ∈ sites) (target : s.task = .command (.label name) ∨
      s.task = .command (.goto name) ∨ s.task = .command (.ifGoto name)) :
    s.scope.labelSymbol name ∈ labelsOf sites := by
  obtain here | jump := target
  · exact mem_labelsOf member (Site.label_mem_labels here)
  · obtain ⟨t, there, task, scopes⟩ := closed.jumps s member name jump
    rw [scopes.labelSymbol]
    exact mem_labelsOf there (Site.label_mem_labels task)

/-- A function that is among the labels is defined. -/
theorem exists_function {f : String} (mem : .function f ∈ labelsOf sites) :
    ∃ j locals, TaskAt sites j (.command (.function f locals)) := by
  obtain ⟨t, there, mem⟩ := List.mem_flatMap.1 mem
  obtain ⟨g, locals, task, same⟩ | ⟨name, -, same⟩ | ⟨mark, n, same⟩ := Site.mem_labels mem
  · cases same
    obtain ⟨j, site⟩ := List.getElem?_of_mem there
    exact ⟨j, locals, t, site, task⟩
  · unfold Scope.labelSymbol at same
    split at same <;> cases same
  · cases same

/-- A label of the source that is among the labels is declared in its scope. -/
theorem exists_label {scope : Scope} {name : String}
    (mem : scope.labelSymbol name ∈ labelsOf sites) :
    ∃ t ∈ sites, t.task = .command (.label name) ∧ scope.SameLabels t.scope := by
  obtain ⟨t, there, mem⟩ := List.mem_flatMap.1 mem
  obtain ⟨g, locals, -, same⟩ | ⟨other, task, same⟩ | ⟨mark, n, same⟩ := Site.mem_labels mem
  · unfold Scope.labelSymbol at same
    split at same <;> cases same
  · obtain ⟨rfl, scopes⟩ := Scope.labelSymbol_injective same
    exact ⟨t, there, task, scopes⟩
  · unfold Scope.labelSymbol at same
    split at same <;> cases same

/-- A program is closed exactly when every label that its blocks refer to is defined. -/
theorem closed_iff :
    Closed sites ↔
      ∀ a ∈ usedNames (codeOf sites), a.isLabel = true → a ∈ labelsOf sites := by
  constructor
  · intro closed a used label
    obtain ⟨s, member, mem⟩ := List.mem_flatMap.1 (Asm.mem_usedNames.1 used)
    have named := s.code_names _ mem a rfl
    cases a with
    | register | static => cases label
    | function f =>
      obtain ⟨c, task, n, rfl | rfl⟩ := Site.exists_command named (by simp)
      · exact closed.function_mem_labelsOf member (.inl task)
      · exact closed.function_mem_labelsOf member (.inr task)
    | inFunction | inUnit =>
      obtain ⟨c, task, name, same, target⟩ := Site.exists_command named (by simp)
      rw [same]
      obtain rfl | rfl | rfl := target
      · exact closed.target_mem_labelsOf member (.inl task)
      · exact closed.target_mem_labelsOf member (.inr (.inl task))
      · exact closed.target_mem_labelsOf member (.inr (.inr task))
    | made mark number => exact mem_labelsOf member (Site.made_mem_labels named).1
  · intro defined
    constructor
    case calls =>
      rintro i f args ⟨s, site, task⟩
      refine exists_function (defined _ (mem_usedNames_of_code (List.mem_of_getElem? site) ?_) rfl)
      simp [Site.code, task, Command.code, Code.call]
    case jumps =>
      intro s member name jump
      refine exists_label (defined _ (mem_usedNames_of_code member ?_) (s.scope.isLabel_labelSymbol _))
      obtain task | task := jump <;> simp [Site.code, task, Command.code]

theorem Site.static?_eq_some_iff {s : Site} {a : Symbol} :
    s.static? = some a ↔ ∃ index, a = .static s.scope.unit index ∧
      (s.task = .command (.push .static index) ∨ s.task = .command (.pop .static index)) := by
  constructor
  · intro h
    unfold static? at h
    split at h
    · next index task =>
      cases h
      exact ⟨index, rfl, .inl task⟩
    · next index task =>
      cases h
      exact ⟨index, rfl, .inr task⟩
    · cases h
  · rintro ⟨index, rfl, task | task⟩ <;> rw [static?, task]

theorem mem_usedStatics {name : String} :
    name ∈ usedStatics sites ↔
      ∃ k unit index, AccessesAt sites k unit index ∧ (Symbol.static unit index).text = name := by
  rw [usedStatics, List.mem_eraseDups, List.mem_map]
  constructor
  · rintro ⟨a, mem, rfl⟩
    obtain ⟨s, member, accessed⟩ := List.mem_filterMap.1 mem
    obtain ⟨index, rfl, access⟩ := Site.static?_eq_some_iff.1 accessed
    obtain ⟨k, site⟩ := List.getElem?_of_mem member
    exact ⟨k, _, index, ⟨s, site, rfl, access⟩, rfl⟩
  · rintro ⟨k, unit, index, ⟨s, site, rfl, access⟩, rfl⟩
    have accessed := Site.static?_eq_some_iff.2 ⟨index, rfl, access⟩
    exact ⟨_, List.mem_filterMap.2 ⟨s, List.mem_of_getElem? site, accessed⟩, rfl⟩

theorem clashes_iff_mem {unit : String} {index : UInt16} :
    Clashes sites unit index ↔
      (Symbol.static unit index).text ∈ (labelsOf sites).map Symbol.text := by
  rw [clashes_iff, ← Asm.mem_definedNames, definedNames_codeOf]

/-- Static cells are apart from labels exactly when no name is that of both. -/
theorem apart_iff :
    Apart sites ↔ ∀ name ∈ usedStatics sites, name ∉ (labelsOf sites).map Symbol.text := by
  constructor
  · intro apart name used label
    obtain ⟨k, unit, index, access, rfl⟩ := mem_usedStatics.1 used
    exact apart k unit index access (clashes_iff_mem.2 label)
  · intro apart k unit index access clash
    exact apart _ (mem_usedStatics.2 ⟨k, unit, index, access, rfl⟩) (clashes_iff_mem.1 clash)

/-- What blocks refer to has its address before the second pass, except for static cells. -/
theorem Closed.isFixed_eq (closed : Closed sites) (apart : Apart sites) {a : Symbol}
    (used : a ∈ usedNames (codeOf sites)) :
    isFixed ((codeOf sites).map (Statement.map Symbol.text)) a.text = !a.isStatic := by
  have label (defined : a ∈ labelsOf sites) :
      isFixed ((codeOf sites).map (Statement.map Symbol.text)) a.text = true := by
    rw [isFixed, definedNames_codeOf, decide_eq_true (List.mem_map_of_mem defined), Bool.or_true]
  cases a with
  | register r =>
    have known : (Asm.predefined.lookup (Symbol.register r).text).isSome = true := by
      cases r <;> decide
    rw [isFixed, known]
    rfl
  | static unit index =>
    have mem : .static unit index ∈ (usedNames (codeOf sites)).filter Symbol.isStatic :=
      List.mem_filter.2 ⟨used, rfl⟩
    rw [statics_of_codeOf] at mem
    have free := apart_iff.1 apart _ (List.mem_eraseDups.2 (List.mem_map_of_mem mem))
    have other : (Symbol.static unit index).text ∉ Asm.predefined.map Prod.fst := by
      intro mem
      obtain ⟨⟨name, v⟩, row, rfl⟩ := List.mem_map.1 mem
      exact static_notMem_predefined unit index v row
    rw [Asm.mem_predefined_iff] at other
    rw [isFixed, definedNames_codeOf, Bool.eq_false_iff.2 other, decide_eq_false free]
    rfl
  | function | inFunction | inUnit | made => exact label (closed_iff.1 closed _ used rfl)

/-- The variables of a closed program are the static cells that are used. -/
theorem Closed.variableNames_eq (closed : Closed sites) (apart : Apart sites) :
    variableNames ((codeOf sites).map (Statement.map Symbol.text)) = usedStatics sites := by
  have fixed : ∀ a ∈ usedNames (codeOf sites),
      (!isFixed ((codeOf sites).map (Statement.map Symbol.text)) a.text) = a.isStatic := by
    intro a used
    rw [closed.isFixed_eq apart used, Bool.not_not]
  rw [variableNames, Asm.newNames, Asm.usedNames_map, List.filter_map, usedStatics,
    ← statics_of_codeOf, ← List.filter_congr fixed]
  rfl

theorem Scope.isMade_labelSymbol (s : Scope) (name : String) :
    (s.labelSymbol name).isMade = false := by
  unfold labelSymbol
  split <;> rfl

/-- The labels of a block that were not made are what it declares. -/
theorem Site.declared_of_labels (s : Site) :
    (s.labels.filter fun a => !a.isMade) = s.declared?.toList := by
  obtain ⟨scope, note, task⟩ := s
  cases task with
  | setStack base => rfl
  | command c =>
    cases c with
    | operate op => cases op <;> rfl
    | label name =>
      show [scope.labelSymbol name].filter _ = [scope.labelSymbol name]
      simp [scope.isMade_labelSymbol]
    | function name locals =>
      by_cases none : locals = 0 <;> simp [labels, Command.labels, declared?, none, Symbol.isMade]
    | _ => rfl

/-- A comparison makes two labels, and a call and the start of a function with local variables one
each. -/
theorem Site.made_of_labels (s : Site) :
    s.labels.countP Symbol.isMade =
      (if s.task.compares then 2 else 0) + (if s.task.calls then 1 else 0) +
        if s.task.hasLocals then 1 else 0 := by
  obtain ⟨scope, note, task⟩ := s
  cases task with
  | setStack base => rfl
  | command c =>
    cases c with
    | operate op => cases op <;> rfl
    | label name =>
      show [scope.labelSymbol name].countP _ = 0
      simp [scope.isMade_labelSymbol]
    | function name locals =>
      by_cases none : locals = 0 <;>
        simp [labels, Command.labels, none, Symbol.isMade, Task.hasLocals, Task.compares, Task.calls]
    | _ => rfl

theorem declared_of_labelsOf (sites : List Site) :
    ((labelsOf sites).filter fun a => !a.isMade) = sites.filterMap Site.declared? := by
  rw [labelsOf, List.filter_flatMap, List.filterMap_eq_flatMap_toList]
  exact congrArg (List.flatMap · sites) (funext Site.declared_of_labels)

theorem made_of_labelsOf (sites : List Site) :
    (labelsOf sites).countP Symbol.isMade =
      2 * sites.countP (·.task.compares) + sites.countP (·.task.calls) +
        sites.countP (·.task.hasLocals) := by
  induction sites with
  | nil => rfl
  | cons s sites ih =>
    rw [labelsOf, List.flatMap_cons, List.countP_append, s.made_of_labels, ← labelsOf, ih]
    simp only [List.countP_cons]
    split <;> omega

/-- The variables and labels of a program are those that its blocks account for. The variables are
the static cells that are used, from 16 up. The labels are those of the blocks, in their order:
those of the source, which are the functions and the labels within their scopes, and those that are
made, counted by the commands that they are made for. -/
structure Inventory (sites : List Site) (p : Asm.Program) : Prop where
  vars : rows p.symbols.vars = (usedStatics sites).zipIdx 16
  labels : p.symbols.labels.toList.map Prod.fst = (labelsOf sites).map Symbol.text
  declared : ((labelsOf sites).filter fun a => !a.isMade) = sites.filterMap Site.declared?
  made : (labelsOf sites).countP Symbol.isMade =
    2 * sites.countP (·.task.compares) + sites.countP (·.task.calls) +
      sites.countP (·.task.hasLocals)

/-- Two units with a static cell of one index each, a comparison, a jump, two calls and a local
variable. -/
def chooser : List (String × String) :=
  [("Sys", "function Sys.init 1\npush static 3\npush static 0\ngt\nif-goto DONE\ncall Lib.f 0\n" ++
    "pop static 3\nlabel DONE\ngoto DONE"),
   ("Lib", "function Lib.f 0\npush static 3\nreturn")]

end HackPlatform.Vm
