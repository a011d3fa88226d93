import HackPlatform.Proofs.Asm.Table
import HackPlatform.Proofs.Instr.Coding

/-!
# Assembled programs

When statements assemble, their instructions lie in instruction memory from address zero on, each
name standing for what the table answers. A label stands for the address behind the words before
it, and a name that is neither predefined nor a label for a cell of its own below the screen.
-/

namespace HackPlatform.Asm

open SymbolTable

/-- The names that have an address before the second pass. -/
def Fixed (code : List (Statement String)) (name : String) (v : UInt16) : Prop :=
  (name, v) ∈ predefined ∨ ∃ k, (name, k) ∈ labelsFrom 0 code ∧ v = k.toUInt16

/-- A name has a position as a label exactly when the code defines it. -/
theorem exists_mem_labelsFrom {name : String} (pc : Nat) {code : List (Statement String)} :
    (∃ k, (name, k) ∈ labelsFrom pc code) ↔ .label name ∈ code := by
  induction code generalizing pc with
  | nil => simp [labelsFrom]
  | cons s code ih =>
    cases s with
    | label other =>
      rw [labelsFrom, List.mem_cons, ← ih pc]
      constructor
      · rintro ⟨k, mem⟩
        obtain same | mem := List.mem_cons.1 mem
        · cases same
          exact .inl rfl
        · exact .inr ⟨k, mem⟩
      · rintro (same | ⟨k, mem⟩)
        · cases same
          exact ⟨pc, List.mem_cons_self⟩
        · exact ⟨k, List.mem_cons_of_mem _ mem⟩
    | reference other =>
      rw [labelsFrom, ih]
      · simp
      · simp
    | instr i =>
      rw [labelsFrom, ih]
      · simp
      · simp

/-- Each statement but the labels has one word. -/
theorem length_filterMap_word? (address : String → UInt16) (code : List (Statement String)) :
    (code.filterMap (Statement.word? address)).length = wordCount code := by
  rw [List.length_filterMap_eq_countP]
  refine List.countP_congr fun s _ => ?_
  cases s <;> simp [Statement.word?, Statement.isWord]

/-- What is known of statements that assembled. -/
structure Assembled (code : List (Statement String)) (p : Program) : Prop where
  fits : wordCount code ≤ 32768
  label : ∀ n k, (n, k) ∈ labelsFrom 0 code → k ≤ maxAddress.toNat ∧ ∀ v, (n, v) ∉ predefined
  numbered : p.symbols.Numbered (Fixed code)
  known : ∀ n, .reference n ∈ code → ∃ v, p.symbols.get? n = some v
  words : p.words.toList = code.filterMap (Statement.word? p.symbols.address)

/-- The table between the passes has no variables yet. -/
theorem numbered_of_defines {code : List (Statement String)} {count : Nat} {t : SymbolTable}
    (defines : Defines 0 .initial code count t) : t.Numbered (Fixed code) := by
  have none : t.vars = #[] := defines.vars
  refine ⟨?_, ?_, ?_, ?_, ?_, ?_⟩
  · rintro n v (mem | ⟨k, mem, rfl⟩)
    · exact defines.old n v (get?_initial.2 mem)
    · exact (defines.label n k mem).1
  · intro n v there
    exact .inl ((defines.new n v there).imp get?_initial.1 id)
  · intro n v mem
    rw [none] at mem
    exact absurd mem (Array.not_mem_empty _)
  · intro i n v at_i
    rw [none] at at_i
    cases at_i
  · rw [defines.number, none]
    rfl
  · rw [defines.number]
    decide

theorem assembled_of_assembleStatements {located : List Located} {p : Program}
    (h : assembleStatements located = .ok p) : Assembled (statementsOf located) p := by
  unfold assembleStatements at h
  split at h
  · cases h
  · next count t defined =>
    have defines := defineLabels_defines defined
    split at h
    · cases h
    · next fits =>
      have emits := emitWords_emits (numbered_of_defines defines) h
      have total : wordCount (statementsOf located) = count := by
        rw [defines.count, Nat.zero_add]
      refine ⟨?_, ?_, emits.numbered, emits.known, ?_⟩
      · rw [total]
        exact Nat.le_of_not_lt fits
      · intro n k mem
        obtain ⟨-, bound, fresh⟩ := defines.label n k mem
        refine ⟨bound, fun v named => ?_⟩
        rw [get?_initial.2 named] at fresh
        cases fresh
      · rw [emits.words]
        rfl

namespace Assembled

variable {code : List (Statement String)} {p : Program} (h : Assembled code p)

include h

theorem predefined {n : String} {v : UInt16} (mem : (n, v) ∈ predefined) :
    p.symbols.address n = v :=
  address_eq (h.numbered.fixed n v (.inl mem))

theorem address_label {n : String} {k : Nat} (mem : (n, k) ∈ labelsFrom 0 code) :
    p.symbols.address n = k.toUInt16 :=
  address_eq (h.numbered.fixed n _ (.inr ⟨k, mem, rfl⟩))

/-- A name that is referred to is predefined, a label or a variable. -/
theorem reference {n : String} (mem : .reference n ∈ code) :
    Fixed code n (p.symbols.address n) ∨ (n, p.symbols.address n) ∈ p.symbols.vars := by
  obtain ⟨v, there⟩ := h.known n mem
  rw [address_eq there]
  exact h.numbered.known n v there

/-- Every address that is referred to fits an instruction. -/
theorem address_bound {n : String} (mem : .reference n ∈ code) :
    p.symbols.address n ≤ maxAddress := by
  obtain (named | ⟨k, label, value⟩) | var := h.reference mem
  · have all : ∀ row ∈ Asm.predefined, row.2 ≤ maxAddress := by decide
    exact all _ named
  · have bound := (h.label n k label).1
    have top : maxAddress.toNat = 32767 := rfl
    rw [value, UInt16.le_iff_toNat_le, toNat_toUInt16 (by omega)]
    exact bound
  · exact UInt16.le_of_lt (UInt16.lt_of_lt_of_le (h.numbered.var_bound var).2 (by decide))

omit h in
/-- Words of statements that follow one another in instruction memory are statements that stand. -/
theorem stands_of_words {address : String → UInt16} {words : Array UInt16} (front : List UInt16)
    {code : List (Statement String)}
    (all : words.toList = front ++ code.filterMap (Statement.word? address))
    (fits : words.size ≤ 32768)
    (label : ∀ n k, (n, k) ∈ labelsFrom front.length code → address n = k.toUInt16)
    (reference : ∀ n, .reference n ∈ code → address n ≤ maxAddress)
    (instr : ∀ i, .instr i ∈ code → i.Encodable) :
    Stands ⟨words⟩ address front.length.toUInt16 code := by
  -- The words in front grow as the code is taken apart; their number is the address.
  induction code generalizing front with
  | nil => trivial
  | cons s code ih =>
    have word (w : UInt16) (i : Instr) (cut : words.toList = front ++ w :: code.filterMap
        (Statement.word? address)) (decoded : Instr.decode? w = some i) :
        Rom.instr? ⟨words⟩ front.length.toUInt16 = some i := by
      have size := congrArg List.length cut
      simp only [Array.length_toList, List.length_append, List.length_cons] at size
      have index : front.length.toUInt16.toNat = front.length := toNat_toUInt16 (by omega)
      rw [Rom.instr?, Rom.fetch?, index, ← Array.getElem?_toList, cut,
        List.getElem?_append_right (Nat.le_refl _), Nat.sub_self, List.getElem?_cons_zero]
      exact decoded
    have next (w : UInt16) (cut : words.toList = front ++ w :: code.filterMap
        (Statement.word? address))
        (label : ∀ n k, (n, k) ∈ labelsFrom (front.length + 1) code → address n = k.toUInt16) :
        Stands ⟨words⟩ address (front.length.toUInt16 + 1) code := by
      have rest := ih (front ++ [w]) (by simpa using cut) (by simpa using label)
        (fun n mem => reference n (List.mem_cons_of_mem _ mem))
        (fun i mem => instr i (List.mem_cons_of_mem _ mem))
      rw [List.length_append, toUInt16_add] at rest
      exact rest
    cases s with
    | label name =>
      refine ⟨label name front.length List.mem_cons_self, ?_⟩
      exact ih front all (fun n k mem => label n k (List.mem_cons_of_mem _ mem))
        (fun n mem => reference n (List.mem_cons_of_mem _ mem))
        (fun i mem => instr i (List.mem_cons_of_mem _ mem))
    | reference name =>
      have small := reference name List.mem_cons_self
      exact ⟨word _ _ all (Instr.decode?_encode small), next _ all label⟩
    | instr i =>
      exact ⟨word _ _ all (Instr.decode?_encode (instr i List.mem_cons_self)), next _ all label⟩

theorem size_words : p.words.size = wordCount code := by
  rw [← Array.length_toList, h.words, length_filterMap_word?]

/-- The code stands in instruction memory from its first word on. -/
theorem stands (instr : ∀ i, .instr i ∈ code → i.Encodable) :
    Stands ⟨p.words⟩ p.symbols.address 0 code :=
  stands_of_words [] h.words (h.size_words ▸ h.fits) (fun _ _ => h.address_label)
    (fun _ => h.address_bound) instr

end Assembled

/-! ## Line numbers -/

/-- The error without the number of its line. -/
def Error.unlocated : Error → Error
  | .malformed _ text fault => .malformed 0 text fault
  | .duplicateLabel _ name => .duplicateLabel 0 name
  | .range _ value => .range 0 value
  | .outOfVariables _ name => .outOfVariables 0 name
  | .romFull _ => .romFull 0

/-- Results that are the same up to the lines of errors: one program, or errors of one kind. -/
theorem unlocated_cases {α : Type} {x y : Except Error α}
    (h : x.mapError Error.unlocated = y.mapError Error.unlocated) :
    (∃ a, x = .ok a ∧ y = .ok a) ∨
      ∃ e e', x = .error e ∧ y = .error e' ∧ e.unlocated = e'.unlocated := by
  cases x with
  | ok a =>
    cases y with
    | ok b =>
      obtain rfl := Except.ok.inj h
      exact .inl ⟨a, rfl, rfl⟩
    | error e => cases h
  | error e =>
    cases y with
    | ok b => cases h
    | error e' => exact .inr ⟨e, e', rfl, rfl, Except.error.inj h⟩

/-- The numbers of the lines matter for errors only, and there for the line that they name. -/
theorem defineLabels_unlocated {l l' : List Located} (h : statementsOf l = statementsOf l')
    (pc : Nat) (t : SymbolTable) :
    (defineLabels l pc t).mapError Error.unlocated =
      (defineLabels l' pc t).mapError Error.unlocated := by
  induction l generalizing l' pc t with
  | nil =>
    obtain rfl : l' = [] := List.map_eq_nil_iff.1 h.symm
    rfl
  | cons x l ih =>
    obtain ⟨y, l', rfl, same, rest⟩ := List.map_eq_cons_iff.1 h.symm
    obtain ⟨line, s⟩ := x
    obtain ⟨line', s'⟩ := y
    obtain rfl : s' = s := same
    cases s' with
    | label name =>
      rw [defineLabels, defineLabels]
      by_cases high : pc > maxAddress.toNat
      · rw [if_pos high, if_pos high]
        rfl
      · rw [if_neg high, if_neg high]
        cases t.addLabel? name pc.toUInt16 with
        | none => rfl
        | some next => exact ih rest.symm pc next
    | reference name => exact ih rest.symm (pc + 1) t
    | instr i => exact ih rest.symm (pc + 1) t

theorem emitWords_unlocated {l l' : List Located} (h : statementsOf l = statementsOf l')
    (words : Array UInt16) (t : SymbolTable) :
    (emitWords l words t).mapError Error.unlocated =
      (emitWords l' words t).mapError Error.unlocated := by
  induction l generalizing l' words t with
  | nil =>
    obtain rfl : l' = [] := List.map_eq_nil_iff.1 h.symm
    rfl
  | cons x l ih =>
    obtain ⟨y, l', rfl, same, rest⟩ := List.map_eq_cons_iff.1 h.symm
    obtain ⟨line, s⟩ := x
    obtain ⟨line', s'⟩ := y
    obtain rfl : s' = s := same
    cases s' with
    | label name => exact ih rest.symm words t
    | reference name =>
      rw [emitWords, emitWords]
      cases t.resolve? name with
      | none => rfl
      | some found => exact ih rest.symm _ found.2
    | instr i => exact ih rest.symm _ t

theorem assembleStatements_unlocated {l l' : List Located} (h : statementsOf l = statementsOf l') :
    (assembleStatements l).mapError Error.unlocated =
      (assembleStatements l').mapError Error.unlocated := by
  have labels := defineLabels_unlocated h 0 .initial
  unfold assembleStatements
  obtain ⟨found, first, second⟩ | ⟨e, e', first, second, same⟩ := unlocated_cases labels
  · rw [first, second]
    by_cases full : found.1 > maxAddress.toNat + 1
    · simp only [if_pos full]
      rfl
    · simp only [if_neg full]
      exact emitWords_unlocated h #[] found.2
  · rw [first, second]
    exact congrArg Except.error same

end HackPlatform.Asm
