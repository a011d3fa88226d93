import HackPlatform.Proofs.Asm.Variables

/-!
# Which statements assemble

Statements that fit instruction memory, and whose variables fit their cells, assemble exactly when
every label is defined once and under a name that is not predefined. What else may go wrong is a
label that is defined again.
-/

namespace HackPlatform.Asm

/-- The error is that of a line which is no statement. -/
def Error.OfLine : Error → Prop
  | .malformed .. | .range .. => True
  | _ => False

/-- Names can be entered one after the other beside those that are known. -/
structure Enterable (known : String → Bool) (names : List String) : Prop where
  fresh : ∀ name ∈ names, known name = false
  distinct : names.Nodup

theorem enterable_nil (known : String → Bool) : Enterable known [] :=
  ⟨List.forall_mem_nil _, .nil⟩

/-- A name that is entered is known to those that follow. -/
theorem enterable_cons {known : String → Bool} {name : String} {names : List String} :
    Enterable known (name :: names) ↔
      known name = false ∧ Enterable (fun other => known other || other == name) names := by
  constructor
  · rintro ⟨fresh, distinct⟩
    rw [List.forall_mem_cons] at fresh
    rw [List.nodup_cons] at distinct
    refine ⟨fresh.1, fun other mem => ?_, distinct.2⟩
    have apart : other ≠ name := fun same => distinct.1 (same ▸ mem)
    simp [fresh.2 other mem, apart]
  · rintro ⟨here, fresh, distinct⟩
    have both : ∀ other ∈ names, known other = false ∧ other ≠ name := by
      simpa using fresh
    refine ⟨List.forall_mem_cons.2 ⟨here, fun other mem => (both other mem).1⟩, ?_⟩
    exact List.nodup_cons.2 ⟨fun mem => (both name mem).2 rfl, distinct⟩

/-- Every label has an address. -/
def LabelsFit (pc : Nat) (code : List (Statement String)) : Prop :=
  ∀ row ∈ labelsFrom pc code, row.2 ≤ maxAddress.toNat

theorem labelsFit_of_wordCount {pc : Nat} {code : List (Statement String)}
    (fits : pc + wordCount code ≤ maxAddress.toNat) : LabelsFit pc code := by
  induction code generalizing pc with
  | nil => exact fun _ mem => nomatch mem
  | cons s code ih =>
    cases s with
    | label name => exact List.forall_mem_cons.2 ⟨Nat.le_of_add_right_le fits, ih fits⟩
    | reference name =>
      rw [wordCount_reference] at fits
      exact ih (by omega)
    | instr i =>
      rw [wordCount_instr] at fits
      exact ih (by omega)

/-- Where the labels have addresses, they are entered or one of them is a duplicate. -/
theorem defineLabels_cases {located : List Located} {pc : Nat} {t : SymbolTable}
    (fits : LabelsFit pc (statementsOf located)) :
    (Enterable t.contains (definedNames (statementsOf located)) ∧
        ∃ r, defineLabels located pc t = .ok r) ∨
      (¬Enterable t.contains (definedNames (statementsOf located)) ∧
        ∃ line name, defineLabels located pc t = .error (.duplicateLabel line name)) := by
  induction located generalizing pc t with
  | nil => exact .inl ⟨enterable_nil _, _, rfl⟩
  | cons l located ih =>
    obtain ⟨line, s⟩ := l
    cases s with
    | reference name => exact ih fits
    | instr i => exact ih fits
    | label name =>
      obtain ⟨low, fits⟩ := List.forall_mem_cons.1 fits
      rw [defineLabels, if_neg (Nat.not_lt.2 low)]
      show (Enterable t.contains (name :: definedNames (statementsOf located)) ∧ _) ∨
        ¬Enterable t.contains (name :: definedNames (statementsOf located)) ∧ _
      rw [enterable_cons]
      cases known : t.contains name with
      | true =>
        rw [SymbolTable.addLabel?, if_pos known]
        exact .inr ⟨fun both => Bool.noConfusion both.1, line, name, rfl⟩
      | false =>
        have added : ∃ next, t.addLabel? name pc.toUInt16 = some next := by
          rw [SymbolTable.addLabel?, known]
          exact ⟨_, rfl⟩
        obtain ⟨next, added⟩ := added
        obtain ⟨-, -, -, get⟩ := SymbolTable.addLabel?_eq_some added
        have rest := ih (t := next) fits
        rw [SymbolTable.contains_of_new get] at rest
        rw [added]
        simpa using rest

/-- The number of cells for variables. -/
def variableRoom : Nat := 16368

/-- A name is resolved while there is a cell for it. -/
theorem exists_resolve? {Fixed : String → UInt16 → Prop} {t : SymbolTable} {name : String}
    (numbered : t.Numbered Fixed)
    (room : t.contains name = false → t.vars.size < variableRoom) :
    ∃ addr next, t.resolve? name = some (addr, next) := by
  unfold SymbolTable.resolve?
  split
  · exact ⟨_, _, rfl⟩
  · next unknown =>
    have last := numbered.next
    have free := room (SymbolTable.not_contains_of_get? unknown)
    have low : ¬screenStart ≤ t.nextVariable := by
      rw [UInt16.le_iff_toNat_le, last]
      have top : screenStart.toNat = 16384 := rfl
      unfold variableRoom at free
      omega
    rw [if_neg low]
    exact ⟨_, _, rfl⟩

/-- Where the new names have cells, the words are emitted. -/
theorem exists_emitWords {Fixed : String → UInt16 → Prop} {located : List Located}
    {words : Array UInt16} {t : SymbolTable} (numbered : t.Numbered Fixed)
    (room : t.vars.size + (newNames t.contains (statementsOf located)).length ≤ variableRoom) :
    ∃ p, emitWords located words t = .ok p := by
  induction located generalizing words t with
  | nil => exact ⟨_, rfl⟩
  | cons l located ih =>
    obtain ⟨line, s⟩ := l
    cases s with
    | label name => exact ih numbered room
    | instr i => exact ih numbered room
    | reference name =>
      have cons : statementsOf (⟨line, .reference name⟩ :: located) =
          .reference name :: statementsOf located := rfl
      rw [cons] at room
      have free (new : t.contains name = false) : t.vars.size < variableRoom := by
        rw [newNames_of_new new, List.length_cons] at room
        omega
      obtain ⟨addr, next, resolved⟩ := exists_resolve? numbered free
      rw [emitWords, resolved]
      refine ih (numbered.resolve? resolved).1 ?_
      obtain ⟨known, rfl⟩ | ⟨unknown, rfl, -, entered, -, get⟩ :=
        SymbolTable.resolve?_eq_some resolved
      · have there := SymbolTable.contains_of_get? known
        rwa [newNames_of_known there] at room
      · have new := SymbolTable.not_contains_of_get? unknown
        rw [newNames_of_new new, List.length_cons] at room
        rw [SymbolTable.contains_of_new get, entered, Array.size_push]
        omega

/-! ## Both passes -/

/-- The first table knows the predefined names. -/
theorem contains_initial :
    SymbolTable.initial.contains = fun name => (predefined.lookup name).isSome := by
  funext name
  rw [SymbolTable.contains_eq_isSome]
  congr 1
  ext v
  rw [SymbolTable.get?_initial, lookup_predefined]

/-- There is room for the words, the labels and the variables of code. -/
structure Roomy (code : List (Statement String)) : Prop where
  words : wordCount code ≤ maxAddress.toNat + 1
  labels : LabelsFit 0 code
  vars : (variableNames code).length ≤ variableRoom

/-- Where there is room, statements assemble or have a duplicate among their labels. -/
theorem assembleStatements_cases {located : List Located} (roomy : Roomy (statementsOf located)) :
    (Enterable (fun name => (predefined.lookup name).isSome)
          (definedNames (statementsOf located)) ∧
        ∃ p, assembleStatements located = .ok p) ∨
      (¬Enterable (fun name => (predefined.lookup name).isSome)
          (definedNames (statementsOf located)) ∧
        ∃ line name, assembleStatements located = .error (.duplicateLabel line name)) := by
  rw [← contains_initial]
  obtain ⟨enterable, ⟨count, t⟩, defined⟩ | ⟨clash, line, name, failed⟩ :=
    defineLabels_cases (t := .initial) roomy.labels
  · refine .inl ⟨enterable, ?_⟩
    have defines := defineLabels_defines defined
    have total : count = wordCount (statementsOf located) := by
      rw [defines.count, Nat.zero_add]
    have none : t.vars = #[] := defines.vars
    rw [assembleStatements, defined]
    simp only [total, if_neg (Nat.not_lt.2 roomy.words)]
    refine exists_emitWords (numbered_of_defines defines) ?_
    rw [none, contains_of_defines defines, Array.size_empty, Nat.zero_add]
    exact roomy.vars
  · refine .inr ⟨clash, line, name, ?_⟩
    rw [assembleStatements, failed]

/-- Errors of lines come from reading only. -/
theorem defineLabels_error {located : List Located} {pc : Nat} {t : SymbolTable} {e : Error}
    (h : defineLabels located pc t = .error e) : ¬e.OfLine := by
  induction located generalizing pc t with
  | nil => cases h
  | cons l located ih =>
    obtain ⟨line, s⟩ := l
    cases s with
    | reference name => exact ih h
    | instr i => exact ih h
    | label name =>
      rw [defineLabels] at h
      split at h
      · cases h
        exact id
      · split at h
        · cases h
          exact id
        · exact ih h

theorem emitWords_error {located : List Located} {words : Array UInt16} {t : SymbolTable}
    {e : Error} (h : emitWords located words t = .error e) : ¬e.OfLine := by
  induction located generalizing words t with
  | nil => cases h
  | cons l located ih =>
    obtain ⟨line, s⟩ := l
    cases s with
    | label name => exact ih h
    | instr i => exact ih h
    | reference name =>
      rw [emitWords] at h
      split at h
      · cases h
        exact id
      · exact ih h

theorem assembleStatements_error {located : List Located} {e : Error}
    (h : assembleStatements located = .error e) : ¬e.OfLine := by
  unfold assembleStatements at h
  split at h
  · next failed =>
    cases h
    exact defineLabels_error failed
  · split at h
    · cases h
      exact id
    · exact emitWords_error h

end HackPlatform.Asm
