import HackPlatform.Proofs.Asm.Layout

/-!
# Labels and variables in order

The first pass lists the labels in the order of their definitions. The second lists the variables:
the names that are neither predefined nor labels, each once, in the order of their first uses. Where
a label stands does not matter for this.
-/

namespace HackPlatform.Asm

namespace Statement

variable {ν : Type}

/-- The name that a statement refers to. -/
def referred? : Statement ν → Option ν
  | reference name => some name
  | _ => none

/-- The name that a statement defines. -/
def defined? : Statement ν → Option ν
  | label name => some name
  | _ => none

end Statement

variable {ν μ : Type}

/-- The names that code refers to, in order and as often as it does. -/
def usedNames (code : List (Statement ν)) : List ν :=
  code.filterMap Statement.referred?

/-- The names that code defines, in order. -/
def definedNames (code : List (Statement ν)) : List ν :=
  code.filterMap Statement.defined?

@[simp] theorem usedNames_label (name : ν) (code : List (Statement ν)) :
    usedNames (.label name :: code) = usedNames code := rfl

@[simp] theorem usedNames_reference (name : ν) (code : List (Statement ν)) :
    usedNames (.reference name :: code) = name :: usedNames code := rfl

@[simp] theorem usedNames_instr (i : Instr) (code : List (Statement ν)) :
    usedNames (.instr i :: code) = usedNames code := rfl

theorem mem_usedNames {name : ν} {code : List (Statement ν)} :
    name ∈ usedNames code ↔ .reference name ∈ code := by
  rw [usedNames, List.mem_filterMap]
  constructor
  · rintro ⟨s, mem, named⟩
    cases s <;> cases named
    exact mem
  · exact fun mem => ⟨_, mem, rfl⟩

theorem mem_definedNames {name : ν} {code : List (Statement ν)} :
    name ∈ definedNames code ↔ .label name ∈ code := by
  rw [definedNames, List.mem_filterMap]
  constructor
  · rintro ⟨s, mem, named⟩
    cases s <;> cases named
    exact mem
  · exact fun mem => ⟨_, mem, rfl⟩

theorem usedNames_map (f : ν → μ) (code : List (Statement ν)) :
    usedNames (code.map (Statement.map f)) = (usedNames code).map f := by
  rw [usedNames, usedNames, List.filterMap_map, List.map_filterMap]
  congr 1
  funext s
  cases s <;> rfl

theorem definedNames_map (f : ν → μ) (code : List (Statement ν)) :
    definedNames (code.map (Statement.map f)) = (definedNames code).map f := by
  rw [definedNames, definedNames, List.filterMap_map, List.map_filterMap]
  congr 1
  funext s
  cases s <;> rfl

/-- The distinct names, by first use, that code refers to and that are not known. -/
def newNames (known : String → Bool) (code : List (Statement String)) : List String :=
  ((usedNames code).filter fun name => !known name).eraseDups

/-- Whether a name has its address before the second pass. -/
def isFixed (code : List (Statement String)) (name : String) : Bool :=
  (predefined.lookup name).isSome || decide (name ∈ definedNames code)

/-- The names that become variables, in the order of their first uses. -/
def variableNames (code : List (Statement String)) : List String :=
  newNames (isFixed code) code

theorem newNames_of_known {known : String → Bool} {name : String} (h : known name = true)
    (code : List (Statement String)) :
    newNames known (.reference name :: code) = newNames known code := by
  simp [newNames, h]

theorem newNames_of_new {known : String → Bool} {name : String} (h : known name = false)
    (code : List (Statement String)) :
    newNames known (.reference name :: code) =
      name :: newNames (fun other => known other || other == name) code := by
  simp [newNames, h, List.eraseDups_cons, List.filter_filter, Bool.and_comm]

/-- The names that a table has entered as variables. -/
def SymbolTable.varNames (t : SymbolTable) : List String :=
  t.vars.toList.map Prod.fst

namespace SymbolTable

variable {t next : SymbolTable} {name : String} {addr : UInt16}

theorem contains_eq_isSome (t : SymbolTable) (name : String) :
    t.contains name = (t.get? name).isSome :=
  Std.TreeMap.contains_eq_isSome_getElem?

theorem contains_of_get? (h : t.get? name = some addr) : t.contains name = true := by
  rw [contains_eq_isSome, h]
  rfl

theorem not_contains_of_get? (h : t.get? name = none) : t.contains name = false := by
  rw [contains_eq_isSome, h]
  rfl

/-- Entering a name makes it known and no other. -/
theorem contains_of_new
    (get : ∀ other, next.get? other = if name = other then some addr else t.get? other) :
    next.contains = fun other => t.contains other || other == name := by
  funext other
  rw [contains_eq_isSome, contains_eq_isSome, get]
  split
  · next same => simp [same]
  · next apart => simp [Ne.symm apart]

theorem resolve?_labels (h : t.resolve? name = some (addr, next)) : next.labels = t.labels := by
  unfold resolve? at h
  split at h
  · cases h
    rfl
  · split at h <;> cases h
    rfl

theorem addLabel?_labels (h : t.addLabel? name addr = some next) :
    next.labels = t.labels.push (name, addr) := by
  unfold addLabel? at h
  split at h <;> cases h
  rfl

end SymbolTable

/-- The second pass enters the names that are new to the table, by first use, and no label. -/
theorem emitWords_names {located : List Located} {words : Array UInt16} {t : SymbolTable}
    {p : Program} (h : emitWords located words t = .ok p) :
    p.symbols.labels = t.labels ∧
      p.symbols.varNames = t.varNames ++ newNames t.contains (statementsOf located) := by
  induction located generalizing words t with
  | nil =>
    cases h
    exact ⟨rfl, (List.append_nil _).symm⟩
  | cons l located ih =>
    obtain ⟨line, s⟩ := l
    cases s with
    | label name => exact ih h
    | instr i => exact ih h
    | reference name =>
      rw [emitWords] at h
      split at h
      · cases h
      · next addr next resolved =>
        obtain ⟨labels, vars⟩ := ih h
        refine ⟨labels.trans (SymbolTable.resolve?_labels resolved), ?_⟩
        obtain ⟨known, rfl⟩ | ⟨unknown, rfl, -, entered, -, get⟩ :=
          SymbolTable.resolve?_eq_some resolved
        · have there := SymbolTable.contains_of_get? known
          rw [vars]
          exact congrArg _ (newNames_of_known there _).symm
        · have new := SymbolTable.not_contains_of_get? unknown
          rw [vars, SymbolTable.contains_of_new get, SymbolTable.varNames, entered,
            Array.toList_push, List.map_append, List.append_assoc]
          exact congrArg _ (newNames_of_new new _).symm

/-- The rows of a table as names and numbers. -/
def rows (table : Array (String × UInt16)) : List (String × Nat) :=
  table.toList.map fun row => (row.1, row.2.toNat)

/-- The first pass enters the labels in their order, with the number of words before each. -/
theorem defineLabels_labels {located : List Located} {pc count : Nat} {t next : SymbolTable}
    (h : defineLabels located pc t = .ok (count, next)) :
    rows next.labels = rows t.labels ++ labelsFrom pc (statementsOf located) := by
  induction located generalizing pc t with
  | nil =>
    cases h
    exact (List.append_nil _).symm
  | cons l located ih =>
    obtain ⟨line, s⟩ := l
    cases s with
    | label name =>
      rw [defineLabels] at h
      split at h
      · cases h
      · next low =>
        split at h
        · cases h
        · next mid added =>
          have low : pc ≤ 32767 := Nat.le_of_not_lt low
          have value : pc.toUInt16.toNat = pc := toNat_toUInt16 (by omega)
          rw [ih h, SymbolTable.addLabel?_labels added]
          simp [rows, labelsFrom, value]
    | reference name => exact ih h
    | instr i => exact ih h

/-! ## The tables of a program -/

theorem lookup_predefined {name : String} {v : UInt16} :
    predefined.lookup name = some v ↔ (name, v) ∈ predefined := by
  constructor
  · intro found
    obtain ⟨before, after, cut, -⟩ := List.lookup_eq_some_iff.1 found
    exact cut ▸ by simp
  · intro mem
    have all : ∀ row ∈ predefined, predefined.lookup row.1 = some row.2 := by decide
    exact all _ mem

theorem mem_predefined_iff {name : String} :
    name ∈ predefined.map Prod.fst ↔ (predefined.lookup name).isSome = true := by
  simp only [List.mem_map, Option.isSome_iff_exists, lookup_predefined, Prod.exists,
    exists_and_right, exists_eq_right]

theorem labelsFrom_append (pc : Nat) (front code : List (Statement String)) :
    labelsFrom pc (front ++ code) = labelsFrom pc front ++ labelsFrom (pc + wordCount front) code := by
  induction front generalizing pc with
  | nil => rfl
  | cons s front ih =>
    cases s with
    | label name => simp [labelsFrom, ih]
    | reference name => simp [labelsFrom, ih, Nat.add_assoc, Nat.add_comm 1]
    | instr i => simp [labelsFrom, ih, Nat.add_assoc, Nat.add_comm 1]

theorem map_fst_labelsFrom (pc : Nat) (code : List (Statement String)) :
    (labelsFrom pc code).map Prod.fst = definedNames code := by
  induction code generalizing pc with
  | nil => rfl
  | cons s code ih =>
    cases s with
    | label name => exact congrArg (name :: ·) (ih pc)
    | reference name => exact ih (pc + 1)
    | instr i => exact ih (pc + 1)

/-- The table between the passes knows the fixed names. -/
theorem contains_of_defines {code : List (Statement String)} {count : Nat} {t : SymbolTable}
    (defines : Defines 0 .initial code count t) : t.contains = isFixed code := by
  funext name
  rw [SymbolTable.contains_eq_isSome, Bool.eq_iff_iff, isFixed, Bool.or_eq_true,
    decide_eq_true_iff, mem_definedNames, ← exists_mem_labelsFrom 0, Option.isSome_iff_exists,
    Option.isSome_iff_exists]
  simp only [lookup_predefined, ← SymbolTable.get?_initial]
  constructor
  · rintro ⟨v, there⟩
    exact (defines.new name v there).imp (⟨v, ·⟩) fun ⟨k, mem, _⟩ => ⟨k, mem⟩
  · rintro (⟨v, there⟩ | ⟨k, mem⟩)
    · exact ⟨v, defines.old name v there⟩
    · exact ⟨_, (defines.label name k mem).1⟩

/-- The labels and variables of a program that assembled. -/
theorem names_of_assembleStatements {located : List Located} {p : Program}
    (h : assembleStatements located = .ok p) :
    rows p.symbols.labels = labelsFrom 0 (statementsOf located) ∧
      p.symbols.varNames = variableNames (statementsOf located) := by
  unfold assembleStatements at h
  split at h
  · cases h
  · next count t defined =>
    split at h
    · cases h
    · have defines := defineLabels_defines defined
      obtain ⟨labels, vars⟩ := emitWords_names h
      have none : t.vars = #[] := defines.vars
      refine ⟨?_, ?_⟩
      · rw [labels, defineLabels_labels defined]
        rfl
      · rw [vars, contains_of_defines defines, SymbolTable.varNames, none]
        rfl

end HackPlatform.Asm
