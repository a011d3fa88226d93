import HackPlatform.Proofs.Asm.Enumeration
import HackPlatform.Proofs.Asm.Grammar

/-!
# What the two passes resolve

A name means its predefined address, else the number of words before its label, else the cell that
its first use gives it: variables are numbered from 16 up in the order of their first uses. The
tables and words of an assembled program are those that this meaning gives.
-/

namespace HackPlatform.Asm

/-- What a name means in code: a predefined address, else the number of words before its label,
else the cell that its first use gives it. -/
def meaning? (code : List (Statement String)) (name : String) : Option Nat :=
  ((predefined.lookup name).map UInt16.toNat).or
    (((labelsFrom 0 code).lookup name).or (((variableNames code).idxOf? name).map (16 + ·)))

/-- The word of a statement that is no label: that of its instruction, a name standing for its
meaning, which fits an instruction. -/
inductive WordOf (code : List (Statement String)) : Statement String → UInt16 → Prop
  | reference {name : String} {addr : UInt16} (means : meaning? code name = some addr.toNat)
    (low : addr ≤ maxAddress) : WordOf code (.reference name) (Instr.encode (.address addr))
  | instr (i : Instr) : WordOf code (.instr i) i.encode

/-- The tables and words of a program are those that its statements give: the labels in the order of
their definitions, each at the number of words before it, the variables in the order of their first
uses, from 16 up, and a word for every statement that is no label. The map of addresses knows the
predefined names, the labels and the variables, each as what it means, and gives both lists again,
in whatever order its entries are taken. -/
structure Resolved (code : List (Statement String)) (p : Program) : Prop where
  labels : rows p.symbols.labels = labelsFrom 0 code
  label : ∀ front name rest, code = front ++ .label name :: rest →
    (p.symbols.get? name).map UInt16.toNat = some (wordCount front)
  vars : rows p.symbols.vars = (variableNames code).zipIdx 16
  listed : p.symbols.labelRows = p.symbols.labels.toList
  sorted : ∀ entries, entries.Perm p.symbols.addresses.toList →
    p.symbols.sortVariables entries = p.symbols.vars.toList
  get : ∀ name, (p.symbols.get? name).map UInt16.toNat = meaning? code name
  known : ∀ name, p.symbols.contains name = true ↔
    name ∈ predefined.map Prod.fst ∨ name ∈ definedNames code ∨ name ∈ variableNames code
  size : p.words.size = wordCount code
  words : List.Forall₂ (WordOf code) (code.filter Statement.isWord) p.words.toList

/-- Words that encode the statements one by one. -/
theorem forall₂_wordOf {code part : List (Statement String)} {address : String → UInt16}
    (reference : ∀ n, .reference n ∈ part →
      WordOf code (.reference n) (Instr.encode (.address (address n)))) :
    List.Forall₂ (WordOf code) (part.filter Statement.isWord)
      (part.filterMap (Statement.word? address)) := by
  induction part with
  | nil => exact .nil
  | cons s part ih =>
    have rest := ih fun n mem => reference n (List.mem_cons_of_mem _ mem)
    cases s with
    | label name => exact rest
    | reference name => exact .cons (reference name List.mem_cons_self) rest
    | instr i => exact .cons (.instr i) rest

namespace Assembled

variable {code : List (Statement String)} {p : Program} (h : Assembled code p)

include h

/-- A label stands for its position, as a number. -/
theorem toNat_label {name : String} {k : Nat} (mem : (name, k) ∈ labelsFrom 0 code) :
    (p.symbols.get? name).map UInt16.toNat = some k := by
  have low : k ≤ 32767 := (h.label name k mem).1
  rw [h.numbered.fixed name _ (.inr ⟨k, mem, rfl⟩), Option.map_some, toNat_toUInt16 (by omega)]

/-- The variables are numbered from 16 up. -/
theorem rows_vars (vars : p.symbols.varNames = variableNames code) :
    rows p.symbols.vars = (variableNames code).zipIdx 16 := by
  apply List.ext_getElem?
  intro i
  rw [← vars, List.getElem?_zipIdx, rows, SymbolTable.varNames, List.getElem?_map,
    List.getElem?_map, Array.getElem?_toList]
  cases row : p.symbols.vars[i]? with
  | none => rfl
  | some row' => simp [h.numbered.index i row'.1 row'.2 row]

/-- A variable stands for the cell of its place. -/
theorem toNat_var (vars : p.symbols.varNames = variableNames code) {name : String} {i : Nat}
    (place : (variableNames code)[i]? = some name) :
    (p.symbols.get? name).map UInt16.toNat = some (16 + i) := by
  rw [← vars, SymbolTable.varNames, List.getElem?_map, Array.getElem?_toList] at place
  obtain ⟨⟨name', v⟩, row, same⟩ := Option.map_eq_some_iff.1 place
  obtain rfl : name' = name := same
  rw [(h.numbered.vars name' v (Array.mem_of_getElem? row)).1, Option.map_some,
    h.numbered.index i name' v row]

/-- Only the fixed names and the variables are known. -/
theorem get?_eq_none (vars : p.symbols.varNames = variableNames code) {name : String}
    (named : List.lookup name Asm.predefined = none)
    (label : (labelsFrom 0 code).lookup name = none) (apart : name ∉ variableNames code) :
    p.symbols.get? name = none := by
  cases there : p.symbols.get? name with
  | none => rfl
  | some v =>
    obtain (mem | ⟨k, mem, -⟩) | mem := h.numbered.known name v there
    · rw [lookup_predefined.2 mem] at named
      cases named
    · have other := List.lookup_eq_none_iff.1 label _ mem
      simp at other
    · rw [← vars] at apart
      exact absurd (List.mem_map.2 ⟨_, Array.mem_toList_iff.2 mem, rfl⟩) apart

/-- A name is looked up as what it means. -/
theorem get?_eq_meaning? (vars : p.symbols.varNames = variableNames code) (name : String) :
    (p.symbols.get? name).map UInt16.toNat = meaning? code name := by
  unfold meaning?
  cases named : List.lookup name Asm.predefined with
  | some v =>
    rw [h.numbered.fixed name v (.inl (lookup_predefined.1 named))]
    rfl
  | none =>
    cases label : (labelsFrom 0 code).lookup name with
    | some k =>
      obtain ⟨before, after, cut, -⟩ := List.lookup_eq_some_iff.1 label
      rw [h.toNat_label (k := k) (cut ▸ by simp)]
      rfl
    | none =>
      cases place : (variableNames code).idxOf? name with
      | some i =>
        obtain ⟨inside, here, -⟩ := List.idxOf?_eq_some_iff.1 place
        rw [h.toNat_var vars (List.getElem?_eq_some_iff.2 ⟨inside, here⟩)]
        rfl
      | none =>
        rw [h.get?_eq_none vars named label (List.idxOf?_eq_none_iff.1 place)]
        rfl

/-- The known names are the fixed ones and the variables. -/
theorem contains_iff (vars : p.symbols.varNames = variableNames code) (name : String) :
    p.symbols.contains name = true ↔
      name ∈ Asm.predefined.map Prod.fst ∨ name ∈ definedNames code ∨
        name ∈ variableNames code := by
  rw [SymbolTable.contains_eq_isSome, ← Option.isSome_map, h.get?_eq_meaning? vars, meaning?,
    Option.isSome_or, Option.isSome_or, Option.isSome_map, Option.isSome_map, Bool.or_eq_true,
    Bool.or_eq_true, mem_predefined_iff, mem_definedNames, ← exists_mem_labelsFrom 0,
    List.isSome_idxOf?, List.lookup_isSome_iff (l := labelsFrom 0 code)]
  simp

theorem resolved (labels : rows p.symbols.labels = labelsFrom 0 code)
    (vars : p.symbols.varNames = variableNames code) : Resolved code p := by
  refine ⟨labels, ?_, h.rows_vars vars, h.labelRows_eq labels,
    fun _ => h.sortVariables_eq labels, h.get?_eq_meaning? vars, h.contains_iff vars,
    h.size_words, ?_⟩
  · rintro front name rest rfl
    refine h.toNat_label ?_
    rw [labelsFrom_append, List.mem_append, Nat.zero_add]
    exact .inr List.mem_cons_self
  · rw [h.words]
    refine forall₂_wordOf fun name mem => ?_
    obtain ⟨addr, there⟩ := h.known name mem
    have value : p.symbols.address name = addr := SymbolTable.address_eq there
    refine .reference ?_ (h.address_bound mem)
    rw [← h.get?_eq_meaning? vars, there, value]
    rfl

end Assembled

theorem resolved_of_assembleStatements {located : List Located} {p : Program}
    (h : assembleStatements located = .ok p) : Resolved (statementsOf located) p := by
  obtain ⟨labels, vars⟩ := names_of_assembleStatements h
  exact (assembled_of_assembleStatements h).resolved labels vars

/-- A source that assembles reads as statements that assemble. -/
theorem assemble_eq_ok {source : String} {p : Program} (h : assemble source = .ok p) :
    ∃ located, readSource source = .ok located ∧ assembleStatements located = .ok p := by
  unfold assemble at h
  cases read : readSource source with
  | error e =>
    rw [read] at h
    cases h
  | ok located =>
    rw [read] at h
    exact ⟨located, rfl, h⟩

/-- The statements that the lines of a source denote are resolved by the two passes. -/
theorem assemble_resolves {source : String} {p : Program} (h : assemble source = .ok p) :
    ∃ located, readSource source = .ok located ∧
      List.Forall₂ Denotes ((codeLines source.toList).map Prod.snd) (statementsOf located) ∧
      Resolved (statementsOf located) p := by
  obtain ⟨located, read, passes⟩ := assemble_eq_ok h
  exact ⟨located, read, denotes_of_readSource read, resolved_of_assembleStatements passes⟩

/-- A source with a jump forward, two variables, one of them used twice, and a predefined name. -/
def forward : String :=
  "@END\n0;JMP // skip\n@y\nM=1\n@x\n(END)\n @ S P\nA = M\n@y\n@7"

theorem assemble_resolves_forward :
    ∃ p, assemble forward = .ok p ∧ p.words.size = 9 ∧ rows p.symbols.labels = [("END", 5)] ∧
      rows p.symbols.vars = [("y", 16), ("x", 17)] ∧
      (p.symbols.get? "SP").map UInt16.toNat = some 0 := by
  have accepted : (assemble forward).toOption.isSome = true := by decide +kernel
  cases done : assemble forward with
  | error e =>
    rw [done] at accepted
    cases accepted
  | ok p =>
    obtain ⟨located, read, -, resolved⟩ := assemble_resolves done
    have code : (readSource forward).toOption.map statementsOf =
        some [.reference "END", .branch .zero .always, .reference "y", .assign .onlyM .one,
          .reference "x", .label "END", .reference "SP", .assign .onlyA .m, .reference "y",
          .load 7] := by
      decide +kernel
    rw [read] at code
    rw [Option.some.inj code] at resolved
    exact ⟨p, rfl, resolved.size, resolved.labels, resolved.vars.trans (by decide),
      (resolved.get "SP").trans (by decide)⟩

end HackPlatform.Asm
