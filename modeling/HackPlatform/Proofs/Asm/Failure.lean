import Mathlib.Data.List.Induction
import HackPlatform.Proofs.Asm.Acceptance
import HackPlatform.Proofs.Asm.Resolution

/-!
# Which error is reported

A source text that does not assemble is refused for its first line that denotes nothing; if all lines
denote statements, for the first label that has no address or whose name is taken; if the labels are
fine, for too many words; and if the words fit, for the first variable that finds no cell.
-/

namespace HackPlatform.Asm

/-- What fails of a list and held of nothing begins to fail at some element. -/
theorem exists_first_failure {α : Type} {P : List α → Prop} (start : P []) {l : List α} (h : ¬P l) :
    ∃ front x rest, l = front ++ x :: rest ∧ P front ∧ ¬P (front ++ [x]) := by
  induction l using List.reverseRecOn with
  | nil => exact absurd start h
  | append_singleton front x ih =>
    by_cases before : P front
    · exact ⟨front, x, [], rfl, before, h⟩
    · obtain ⟨front', y, rest, rfl, holds, fails⟩ := ih before
      exact ⟨front', y, rest ++ [x], by simp, holds, fails⟩

theorem statementsOf_concat (front : List Located) (l : Located) :
    statementsOf (front ++ [l]) = statementsOf front ++ [l.statement] :=
  List.map_append

/-- Why a numbered line denotes no statement: its number is too large for an instruction, or it has
a fault that the reader of lines finds. -/
inductive LineFails (l : Nat × List Char) : Error → Prop
  | range {digits : List Char} (large : TooLarge digits) (load : l.2 = '@' :: digits) :
      LineFails l (.range l.1 (String.ofList digits))
  | malformed {fault : Fault} (other : ∀ s, ¬Denotes l.2 s)
      (small : ∀ digits, TooLarge digits → l.2 ≠ '@' :: digits)
      (found : Statement.read l.2 = .error (.malformed fault)) :
      LineFails l (.malformed l.1 (String.ofList l.2) fault)

/-- All labels have addresses, and names that are neither predefined nor those of others. -/
structure Labelled (code : List (Statement String)) : Prop where
  addresses : LabelsFit 0 code
  names : Enterable (fun name => (predefined.lookup name).isSome) (definedNames code)

/-- Why statements do not assemble. The first label that is not fine stands behind more words than
have addresses, or its name is predefined or a label already. Where all labels are fine, there are
more words than addresses and the last line is blamed, or a name that is neither predefined nor a
label is used for the first time after as many as there are cells. -/
inductive PassFails (located : List Located) : Error → Prop
  | far {front rest : List Located} {line : Nat} {name : String}
      (here : located = front ++ ⟨line, .label name⟩ :: rest)
      (fine : Labelled (statementsOf front)) (many : 32767 < wordCount (statementsOf front)) :
      PassFails located (.romFull line)
  | taken {front rest : List Located} {line : Nat} {name : String}
      (here : located = front ++ ⟨line, .label name⟩ :: rest)
      (fine : Labelled (statementsOf front)) (few : wordCount (statementsOf front) ≤ 32767)
      (taken : isFixed (statementsOf front) name = true) :
      PassFails located (.duplicateLabel line name)
  | full {front : List Located} {last : Located} (here : located = front ++ [last])
      (fine : Labelled (statementsOf located)) (many : 32768 < wordCount (statementsOf located)) :
      PassFails located (.romFull last.line)
  | outOfCells {front rest : List Located} {line : Nat} {name : String}
      (here : located = front ++ ⟨line, .reference name⟩ :: rest)
      (fine : Labelled (statementsOf located)) (few : wordCount (statementsOf located) ≤ 32768)
      (free : isFixed (statementsOf located) name = false)
      (first : name ∉ usedNames (statementsOf front))
      (room : (newNames (isFixed (statementsOf located)) (statementsOf front)).length = 16368) :
      PassFails located (.outOfVariables line name)

/-- Why the lines of a source text do not assemble. -/
inductive Fails (lines : List (Nat × List Char)) : Error → Prop
  | line {front rest : List (Nat × List Char)} {l : Nat × List Char} {e : Error}
      (here : lines = front ++ l :: rest) (before : ∀ x ∈ front, ∃ s, Denotes x.2 s)
      (fails : LineFails l e) : Fails lines e
  | pass {located : List Located} {e : Error} (denoted : List.Forall₂ DenotesAt lines located)
      (fails : PassFails located e) : Fails lines e

theorem readLine_eq_error_iff {l : Nat × List Char} {e : Error} :
    readLine l = .error e ↔ LineFails l e := by
  constructor
  · intro h
    unfold readLine at h
    split at h
    · cases h
    · next fault found =>
      cases h
      cases fault with
      | range value =>
        obtain ⟨digits, large, load, rfl⟩ := Statement.read_eq_range_iff.1 found
        exact .range large load
      | malformed fault =>
        refine .malformed (fun s denotes => ?_) (fun digits large load => ?_) found
        · cases found.symm.trans (Statement.read_of_denotes denotes)
        · cases found.symm.trans (Statement.read_eq_range_iff.2 ⟨digits, large, load, rfl⟩)
  · intro h
    unfold readLine
    cases h with
    | range large load =>
      rw [Statement.read_eq_range_iff.2 ⟨_, large, load, rfl⟩]
      rfl
    | malformed other small found =>
      rw [found]
      rfl

theorem readSource_eq_error_iff {source : String} {e : Error} :
    readSource source = .error e ↔
      ∃ front l rest, codeLines source.toList = front ++ l :: rest ∧
        (∀ x ∈ front, ∃ s, Denotes x.2 s) ∧ LineFails l e := by
  have reads (x : Nat × List Char) : (∃ b, readLine x = .ok b) ↔ ∃ s, Denotes x.2 s := by
    constructor
    · rintro ⟨b, read⟩
      exact ⟨b.statement, (readLine_eq_ok_iff.1 read).statement⟩
    · rintro ⟨s, denotes⟩
      exact ⟨⟨x.1, s⟩, readLine_eq_ok_iff.2 ⟨rfl, denotes⟩⟩
  simp only [readSource, mapM_eq_error_iff, readLine_eq_error_iff, reads]

theorem enterable_concat {known : String → Bool} {names : List String} {name : String} :
    Enterable known (names ++ [name]) ↔
      Enterable known names ∧ known name = false ∧ name ∉ names := by
  constructor
  · rintro ⟨fresh, distinct⟩
    obtain ⟨distinct, -, apart⟩ := List.nodup_append.1 distinct
    refine ⟨⟨fun other mem => fresh other (List.mem_append_left _ mem), distinct⟩, ?_, fun mem => ?_⟩
    · exact fresh name (List.mem_append_right _ List.mem_cons_self)
    · exact apart name mem name List.mem_cons_self rfl
  · rintro ⟨⟨fresh, distinct⟩, here, apart⟩
    refine ⟨List.forall_mem_append.2 ⟨fresh, List.forall_mem_singleton.2 here⟩, ?_⟩
    refine List.nodup_append.2 ⟨distinct, List.pairwise_singleton _ name, ?_⟩
    rintro other mem _ last rfl
    exact apart (List.mem_singleton.1 last ▸ mem)

theorem labelled_nil : Labelled [] :=
  ⟨fun _ mem => (nomatch mem), enterable_nil _⟩

/-- A label behind others is fine when it has an address and its name is not taken. -/
theorem labelled_concat_label {code : List (Statement String)} {name : String} :
    Labelled (code ++ [.label name]) ↔
      Labelled code ∧ wordCount code ≤ 32767 ∧ isFixed code name = false := by
  have address : LabelsFit 0 (code ++ [.label name]) ↔
      LabelsFit 0 code ∧ wordCount code ≤ 32767 := by
    unfold LabelsFit
    rw [labelsFrom_append, List.forall_mem_append, Nat.zero_add]
    exact and_congr_right fun _ => List.forall_mem_singleton
  have names : definedNames (code ++ [.label name]) = definedNames code ++ [name] :=
    List.filterMap_append
  have taken : isFixed code name = false ↔
      (predefined.lookup name).isSome = false ∧ name ∉ definedNames code := by
    rw [isFixed, Bool.or_eq_false_iff, decide_eq_false_iff_not]
  rw [taken]
  constructor
  · rintro ⟨fits, enterable⟩
    rw [names, enterable_concat] at enterable
    exact ⟨⟨(address.1 fits).1, enterable.1⟩, (address.1 fits).2, enterable.2⟩
  · rintro ⟨⟨fits, enterable⟩, few, free⟩
    refine ⟨address.2 ⟨fits, few⟩, ?_⟩
    rw [names, enterable_concat]
    exact ⟨enterable, free⟩

/-- A word changes nothing about the labels. -/
theorem labelled_concat_word {code : List (Statement String)} {s : Statement String}
    (word : s.isWord = true) (fine : Labelled code) : Labelled (code ++ [s]) := by
  have none : labelsFrom (0 + wordCount code) [s] = [] ∧ definedNames [s] = [] := by
    cases s with
    | label name => cases word
    | reference name => exact ⟨rfl, rfl⟩
    | instr i => exact ⟨rfl, rfl⟩
  constructor
  · unfold LabelsFit
    rw [labelsFrom_append, none.1, List.append_nil]
    exact fine.addresses
  · rw [definedNames, List.filterMap_append]
    have last : [s].filterMap Statement.defined? = [] := none.2
    rw [last, List.append_nil]
    exact fine.names

/-- If the labels are not all fine, there is a first that is not. -/
theorem exists_first_label {located : List Located} (h : ¬Labelled (statementsOf located)) :
    ∃ front line name rest, located = front ++ ⟨line, .label name⟩ :: rest ∧
      Labelled (statementsOf front) ∧
      ¬(wordCount (statementsOf front) ≤ 32767 ∧ isFixed (statementsOf front) name = false) := by
  obtain ⟨front, ⟨line, s⟩, rest, here, fine, fails⟩ :=
    exists_first_failure (P := fun l => Labelled (statementsOf l)) labelled_nil h
  rw [statementsOf_concat] at fails
  cases s with
  | label name =>
    exact ⟨front, line, name, rest, here, fine, fun good => fails (labelled_concat_label.2 ⟨fine, good⟩)⟩
  | reference name => exact absurd (labelled_concat_word rfl fine) fails
  | instr i => exact absurd (labelled_concat_word rfl fine) fails

/-- The first pass goes on from where it has come to. -/
theorem defineLabels_append (front rest : List Located) (pc : Nat) (t : SymbolTable) :
    defineLabels (front ++ rest) pc t =
      (defineLabels front pc t).bind fun r => defineLabels rest r.1 r.2 := by
  induction front generalizing pc t with
  | nil => rfl
  | cons l front ih =>
    obtain ⟨line, s⟩ := l
    cases s with
    | label name =>
      rw [List.cons_append, defineLabels, defineLabels]
      split
      · rfl
      · split
        · rfl
        · exact ih _ _
    | reference name => exact ih _ _
    | instr i => exact ih _ _

/-- Labels that are fine are entered. -/
theorem Labelled.exists_table {located : List Located} (fine : Labelled (statementsOf located)) :
    ∃ t, defineLabels located 0 .initial = .ok (wordCount (statementsOf located), t) ∧
      t.contains = isFixed (statementsOf located) ∧ t.Numbered (Fixed (statementsOf located)) ∧
      t.vars = #[] := by
  obtain ⟨-, ⟨count, t⟩, defined⟩ | ⟨clash, -⟩ :=
    defineLabels_cases (t := .initial) fine.addresses
  · have defines := defineLabels_defines defined
    have total : count = wordCount (statementsOf located) := by
      rw [defines.count, Nat.zero_add]
    exact ⟨t, total ▸ defined, contains_of_defines defines, numbered_of_defines defines, defines.vars⟩
  · rw [contains_initial] at clash
    exact absurd fine.names clash

/-- The first pass stops at the first label that is not fine. -/
theorem defineLabels_label {front rest : List Located} {line : Nat} {name : String} {e : Error}
    (fine : Labelled (statementsOf front))
    (fails : ∀ t, t.contains = isFixed (statementsOf front) →
      defineLabels (⟨line, .label name⟩ :: rest) (wordCount (statementsOf front)) t = .error e) :
    assembleStatements (front ++ ⟨line, .label name⟩ :: rest) = .error e := by
  obtain ⟨t, defined, known, -⟩ := fine.exists_table
  have stopped : defineLabels (front ++ ⟨line, .label name⟩ :: rest) 0 .initial = .error e := by
    rw [defineLabels_append, defined]
    exact fails t known
  rw [assembleStatements, stopped]

theorem mem_newNames {known : String → Bool} {name : String} {code : List (Statement String)} :
    name ∈ newNames known code ↔ name ∈ usedNames code ∧ known name = false := by
  rw [newNames, List.mem_eraseDups, List.mem_filter, Bool.not_eq_true']

/-- The second pass goes on from where it has come to. -/
theorem emitWords_append (front rest : List Located) (words : Array UInt16) (t : SymbolTable) :
    emitWords (front ++ rest) words t =
      (emitWords front words t).bind fun p => emitWords rest p.words p.symbols := by
  induction front generalizing words t with
  | nil => rfl
  | cons l front ih =>
    obtain ⟨line, s⟩ := l
    cases s with
    | label name => exact ih _ _
    | instr i => exact ih _ _
    | reference name =>
      rw [List.cons_append, emitWords, emitWords]
      split
      · rfl
      · exact ih _ _

/-- The names that are new to code behind other code are neither known nor used before. -/
theorem newNames_append (known : String → Bool) (code rest : List (Statement String)) :
    newNames known (code ++ rest) =
      newNames known code ++
        newNames (fun name => known name || decide (name ∈ usedNames code)) rest := by
  rw [newNames, usedNames, List.filterMap_append, List.filter_append, List.eraseDups_append,
    List.removeAll, List.filter_filter]
  congr 2
  refine List.filter_congr fun name _ => ?_
  cases new : known name <;> simp [usedNames, new]

/-- Code has as many new names as one more statement at most adds. -/
theorem length_newNames_concat {known : String → Bool} {code : List (Statement String)}
    {s : Statement String} (more : newNames known (code ++ [s]) ≠ newNames known code) :
    ∃ name, s = .reference name ∧ known name = false ∧ name ∉ usedNames code ∧
      (newNames known (code ++ [s])).length = (newNames known code).length + 1 := by
  rw [newNames_append] at more ⊢
  cases s with
  | label name => exact absurd (List.append_nil _) more
  | instr i => exact absurd (List.append_nil _) more
  | reference name =>
    cases new : known name || decide (name ∈ usedNames code) with
    | true =>
      rw [newNames_of_known new] at more
      exact absurd (List.append_nil _) more
    | false =>
      obtain ⟨unknown, unused⟩ := Bool.or_eq_false_iff.1 new
      rw [newNames_of_new new]
      exact ⟨name, rfl, unknown, of_decide_eq_false unused, List.length_append⟩

/-- If the new names are more than there are cells, there is a first that has none. -/
theorem exists_first_variable {known : String → Bool} {located : List Located}
    (many : 16368 < (newNames known (statementsOf located)).length) :
    ∃ front line name rest, located = front ++ ⟨line, .reference name⟩ :: rest ∧
      known name = false ∧ name ∉ usedNames (statementsOf front) ∧
      (newNames known (statementsOf front)).length = 16368 := by
  obtain ⟨front, ⟨line, s⟩, rest, here, few, fails⟩ := exists_first_failure
    (P := fun l => (newNames known (statementsOf l)).length ≤ 16368) (Nat.zero_le _)
    (Nat.not_le.2 many)
  rw [statementsOf_concat] at fails
  change ¬(newNames known (statementsOf front ++ [s])).length ≤ 16368 at fails
  have more : newNames known (statementsOf front ++ [s]) ≠ newNames known (statementsOf front) :=
    fun same => fails (same ▸ few)
  obtain ⟨name, rfl, unknown, unused, one⟩ := length_newNames_concat more
  refine ⟨front, line, name, rest, here, unknown, unused, ?_⟩
  have more := Nat.not_le.1 fails
  omega

/-- A new name finds no cell when all are taken. -/
theorem resolve?_eq_none {Fixed : String → UInt16 → Prop} {t : SymbolTable} {name : String}
    (numbered : t.Numbered Fixed) (unknown : t.get? name = none) (full : t.vars.size = 16368) :
    t.resolve? name = none := by
  have last := numbered.next
  have top : screenStart ≤ t.nextVariable := by
    rw [UInt16.le_iff_toNat_le, last, full]
    decide
  rw [SymbolTable.resolve?, unknown]
  exact if_pos top

/-- The second pass stops at the first variable that finds no cell. -/
theorem emitWords_variable {front rest : List Located} {line : Nat} {name : String}
    {Fixed : String → UInt16 → Prop} {t : SymbolTable} (numbered : t.Numbered Fixed)
    (none : t.vars = #[]) (free : t.contains name = false)
    (first : name ∉ usedNames (statementsOf front))
    (room : (newNames t.contains (statementsOf front)).length = 16368) :
    emitWords (front ++ ⟨line, .reference name⟩ :: rest) #[] t =
      .error (.outOfVariables line name) := by
  have cells : t.vars.size + (newNames t.contains (statementsOf front)).length ≤ variableRoom := by
    rw [none, room]
    decide
  obtain ⟨p, done⟩ : ∃ p, emitWords front #[] t = .ok p := exists_emitWords numbered cells
  have after := (emitWords_emits numbered done).numbered
  have names : p.symbols.varNames = newNames t.contains (statementsOf front) := by
    rw [(emitWords_names done).2, SymbolTable.varNames, none]
    rfl
  have unknown : p.symbols.get? name = Option.none := by
    cases there : p.symbols.get? name with
    | none => rfl
    | some v =>
      obtain fixed | var := after.known name v there
      · rw [SymbolTable.contains_of_get? (numbered.fixed name v fixed)] at free
        cases free
      · have mem : name ∈ p.symbols.varNames := List.mem_map.2 ⟨_, Array.mem_toList_iff.2 var, rfl⟩
        rw [names, mem_newNames] at mem
        exact absurd mem.1 first
  have full : p.symbols.vars.size = 16368 := by
    rw [← room, ← names, SymbolTable.varNames, List.length_map, Array.length_toList]
  rw [emitWords_append, done]
  show emitWords (⟨line, .reference name⟩ :: rest) p.words p.symbols = _
  rw [emitWords, resolve?_eq_none after unknown full]

/-! ## Both passes -/

/-- What fails is refused with its error. -/
theorem PassFails.assembleStatements_eq {located : List Located} {e : Error}
    (h : PassFails located e) : assembleStatements located = .error e := by
  cases h with
  | @far front rest line name here fine many =>
    rw [here]
    refine defineLabels_label fine fun t known => ?_
    rw [defineLabels]
    exact if_pos many
  | @taken front rest line name here fine few taken =>
    rw [here]
    refine defineLabels_label fine fun t known => ?_
    have there : t.contains name = true := known ▸ taken
    have low : ¬wordCount (statementsOf front) > maxAddress.toNat := Nat.not_lt.2 few
    rw [defineLabels, if_neg low, SymbolTable.addLabel?, if_pos there]
  | @full front last here fine many =>
    obtain ⟨t, defined, -⟩ := fine.exists_table
    have blamed : located.getLast? = some last := here ▸ List.getLast?_concat
    rw [assembleStatements, defined]
    simp only [blamed]
    exact if_pos many
  | @outOfCells front rest line name here fine few free first room =>
    obtain ⟨t, defined, known, numbered, none⟩ := fine.exists_table
    rw [← known] at free room
    rw [assembleStatements, defined]
    refine (if_neg (Nat.not_lt.2 few)).trans ?_
    subst here
    exact emitWords_variable numbered none free first room

/-- Statements assemble or fail. -/
theorem assembles_or_fails (located : List Located) :
    (∃ p, assembleStatements located = .ok p) ∨ ∃ e, PassFails located e := by
  by_cases fine : Labelled (statementsOf located)
  case neg =>
    obtain ⟨front, line, name, rest, here, fine, bad⟩ := exists_first_label fine
    by_cases few : wordCount (statementsOf front) ≤ 32767
    · have taken : isFixed (statementsOf front) name = true := by
        rw [← Bool.not_eq_false]
        exact fun free => bad ⟨few, free⟩
      exact .inr ⟨_, .taken here fine few taken⟩
    · exact .inr ⟨_, .far here fine (Nat.not_le.1 few)⟩
  by_cases few : wordCount (statementsOf located) ≤ 32768
  case neg =>
    obtain rfl | ⟨front, last, here⟩ := List.eq_nil_or_concat located
    · exact absurd (Nat.zero_le _) few
    · rw [List.concat_eq_append] at here
      exact .inr ⟨_, .full here fine (Nat.not_le.1 few)⟩
  by_cases room : (variableNames (statementsOf located)).length ≤ 16368
  case neg =>
    obtain ⟨front, line, name, rest, here, free, first, many⟩ :=
      exists_first_variable (Nat.not_le.1 room)
    exact .inr ⟨_, .outOfCells here fine few free first many⟩
  obtain ⟨enterable, assembled⟩ | ⟨clash, -⟩ := assembleStatements_cases ⟨few, fine.addresses, room⟩
  · exact .inl assembled
  · exact absurd fine.names clash

theorem assembleStatements_eq_error_iff {located : List Located} {e : Error} :
    assembleStatements located = .error e ↔ PassFails located e := by
  constructor
  · intro h
    obtain ⟨p, ok⟩ | ⟨e', fails⟩ := assembles_or_fails located
    · cases ok.symm.trans h
    · cases fails.assembleStatements_eq.symm.trans h
      exact fails
  · exact PassFails.assembleStatements_eq

/-- The tables of an assembled program hold the numbers of words and of variables that stand before
each entry, so no count was cut to sixteen bits. -/
structure WithinLimits (lines : List (Nat × List Char)) (p : Program) : Prop where
  labels : ∀ row ∈ p.symbols.labels, row.2 ≤ 32767
  vars : ∀ row ∈ p.symbols.vars, 16 ≤ row.2 ∧ row.2 ≤ 16383
  next : p.symbols.nextVariable.toNat = 16 + p.symbols.vars.size
  exact : ∃ located, List.Forall₂ DenotesAt lines located ∧
    rows p.symbols.labels = labelsFrom 0 (statementsOf located) ∧
    rows p.symbols.vars = (variableNames (statementsOf located)).zipIdx 16

/-- Which error a source text has, and that it assembles when it has none. -/
structure Selects (source : String) : Prop where
  error : ∀ e, assemble source = .error e ↔ Fails (codeLines source.toList) e
  ok : (∀ e, ¬Fails (codeLines source.toList) e) → ∃ p, assemble source = .ok p
  limits : ∀ p, assemble source = .ok p → WithinLimits (codeLines source.toList) p

theorem assemble_eq_error_iff {source : String} {e : Error} :
    assemble source = .error e ↔ Fails (codeLines source.toList) e := by
  have passes : assemble source = .error e ↔ readSource source = .error e ∨
      ∃ located, readSource source = .ok located ∧ assembleStatements located = .error e := by
    rw [assemble]
    cases readSource source <;> simp [Except.bind]
  simp only [passes, readSource_eq_error_iff, readSource_eq_ok_iff, assembleStatements_eq_error_iff]
  constructor
  · rintro (⟨front, l, rest, here, before, fails⟩ | ⟨located, denoted, fails⟩)
    · exact .line here before fails
    · exact .pass denoted fails
  · intro h
    cases h with
    | line here before fails => exact .inl ⟨_, _, _, here, before, fails⟩
    | pass denoted fails => exact .inr ⟨_, denoted, fails⟩

theorem withinLimits_of_assemble {source : String} {p : Program} (h : assemble source = .ok p) :
    WithinLimits (codeLines source.toList) p := by
  obtain ⟨located, read, passed⟩ := assemble_eq_ok h
  have assembled := assembled_of_assembleStatements passed
  have resolved := resolved_of_assembleStatements passed
  constructor
  case labels =>
    rintro ⟨name, addr⟩ mem
    have entered : (name, addr.toNat) ∈ rows p.symbols.labels :=
      List.mem_map.2 ⟨_, Array.mem_toList_iff.2 mem, rfl⟩
    rw [resolved.labels] at entered
    exact (assembled.label name _ entered).1
  case vars =>
    rintro ⟨name, addr⟩ mem
    obtain ⟨low, high⟩ := assembled.numbered.var_bound mem
    exact ⟨low, Nat.le_of_lt_succ high⟩
  case next => exact assembled.numbered.next
  case exact => exact ⟨located, readSource_eq_ok_iff.1 read, resolved.labels, resolved.vars⟩

/-- The assembler reports exactly the errors that its limits and its grammar give. -/
theorem assemble_selects (source : String) : Selects source := by
  constructor
  case error => exact fun e => assemble_eq_error_iff
  case ok =>
    intro fine
    cases done : assemble source with
    | ok p => exact ⟨p, rfl⟩
    | error e => exact absurd (assemble_eq_error_iff.1 done) (fine e)
  case limits => exact fun p => withinLimits_of_assemble

end HackPlatform.Asm
