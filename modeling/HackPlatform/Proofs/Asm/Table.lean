import HackPlatform.Asm.Program
import HackPlatform.Proofs.Asm.Stands

/-!
# What names stand for

A name of an assembled program is predefined, a label or a variable, and never two of these. The
first pass gives each label the number of words before it; the second numbers the variables from 16
up, in the order in which they are first used.
-/

namespace HackPlatform.Asm

open SymbolTable

/-- The labels of code with the number of words before each, from a first number on. -/
def labelsFrom : Nat → List (Statement String) → List (String × Nat)
  | _, [] => []
  | pc, .label name :: rest => (name, pc) :: labelsFrom pc rest
  | pc, _ :: rest => labelsFrom (pc + 1) rest

namespace SymbolTable

variable {t next : SymbolTable} {name : String} {addr : UInt16}

/-- What a table answers after a name was entered. -/
theorem get?_insert (t : SymbolTable) (name other : String) (addr : UInt16)
    (labels vars : Array (String × UInt16)) (nextVariable : UInt16) :
    get? ⟨t.addresses.insert name addr, labels, vars, nextVariable⟩ other =
      if name = other then some addr else t.get? other := by
  simp [get?, Std.TreeMap.getElem?_insert]

/-- Entering a name that was unknown forgets none. -/
theorem get?_of_new {n : String} {v : UInt16} (unknown : t.get? name = none)
    (get : ∀ other, next.get? other = if name = other then some addr else t.get? other)
    (there : t.get? n = some v) : next.get? n = some v := by
  have other : name ≠ n := by
    rintro rfl
    rw [unknown] at there
    cases there
  rw [get, if_neg other, there]

/-- A label is entered under a name that was unknown, and nothing else changes. -/
theorem addLabel?_eq_some (h : t.addLabel? name addr = some next) :
    t.get? name = none ∧ next.vars = t.vars ∧ next.nextVariable = t.nextVariable ∧
      ∀ other, next.get? other = if name = other then some addr else t.get? other := by
  unfold addLabel? at h
  split at h
  · cases h
  · next unknown =>
    cases h
    refine ⟨?_, rfl, rfl, fun other => get?_insert ..⟩
    rw [contains, Bool.not_eq_true] at unknown
    exact Std.TreeMap.getElem?_eq_none_of_contains_eq_false unknown

/-- A name is resolved by what is known, or becomes the next variable. -/
theorem resolve?_eq_some (h : t.resolve? name = some (addr, next)) :
    (t.get? name = some addr ∧ next = t) ∨
      (t.get? name = none ∧ addr = t.nextVariable ∧ t.nextVariable < screenStart ∧
        next.vars = t.vars.push (name, addr) ∧ next.nextVariable = t.nextVariable + 1 ∧
        ∀ other, next.get? other = if name = other then some addr else t.get? other) := by
  unfold resolve? at h
  split at h
  · next known =>
    cases h
    exact .inl ⟨known, rfl⟩
  · next unknown =>
    split at h
    · cases h
    · next free =>
      cases h
      exact .inr ⟨unknown, rfl, UInt16.not_le.1 free, rfl, rfl, fun other => get?_insert ..⟩

/-- A table that knows the names of `Fixed` and has numbered the others from 16 up. -/
structure Numbered (Fixed : String → UInt16 → Prop) (t : SymbolTable) : Prop where
  fixed : ∀ n v, Fixed n v → t.get? n = some v
  known : ∀ n v, t.get? n = some v → Fixed n v ∨ (n, v) ∈ t.vars
  vars : ∀ n v, (n, v) ∈ t.vars → t.get? n = some v ∧ ∀ w, ¬Fixed n w
  index : ∀ (i : Nat) n v, t.vars[i]? = some (n, v) → v.toNat = 16 + i
  next : t.nextVariable.toNat = 16 + t.vars.size
  bound : t.nextVariable ≤ screenStart

variable {Fixed : String → UInt16 → Prop}

/-- Variables lie from 16 up to the screen. -/
theorem Numbered.var_bound (h : t.Numbered Fixed) {n : String} {v : UInt16} (mem : (n, v) ∈ t.vars) :
    16 ≤ v ∧ v < screenStart := by
  obtain ⟨i, at_i⟩ := Array.mem_iff_getElem?.1 mem
  have place := h.index i n v at_i
  obtain ⟨inside, -⟩ := Array.getElem?_eq_some_iff.1 at_i
  have last := h.next
  have bound : t.nextVariable.toNat ≤ screenStart.toNat := h.bound
  rw [UInt16.le_iff_toNat_le, UInt16.lt_iff_toNat_lt]
  exact ⟨by rw [place]; exact Nat.le_add_right 16 i, by omega⟩

/-- Two variables have different cells. -/
theorem Numbered.var_injective (h : t.Numbered Fixed) {n n' : String} {v : UInt16}
    (mem : (n, v) ∈ t.vars) (mem' : (n', v) ∈ t.vars) : n = n' := by
  obtain ⟨i, at_i⟩ := Array.mem_iff_getElem?.1 mem
  obtain ⟨j, at_j⟩ := Array.mem_iff_getElem?.1 mem'
  have place := h.index i n v at_i
  have place' := h.index j n' v at_j
  have same : i = j := by omega
  subst same
  rw [at_i] at at_j
  cases at_j
  rfl

/-- An unknown name is numbered next. -/
theorem Numbered.push (h : t.Numbered Fixed) (unknown : t.get? name = none)
    (free : t.nextVariable < screenStart) (vars : next.vars = t.vars.push (name, t.nextVariable))
    (number : next.nextVariable = t.nextVariable + 1)
    (get : ∀ other, next.get? other = if name = other then some t.nextVariable else t.get? other) :
    next.Numbered Fixed := by
  have size : next.vars.size = t.vars.size + 1 := by rw [vars, Array.size_push]
  have free' : t.nextVariable.toNat < screenStart.toNat := free
  have top : screenStart.toNat = 16384 := rfl
  have last := h.next
  have succ : (t.nextVariable + 1).toNat = t.nextVariable.toNat + 1 := by
    rw [UInt16.toNat_add]
    exact Nat.mod_eq_of_lt (by rw [UInt16.toNat_one]; omega)
  constructor
  case fixed => exact fun n v fixed => get?_of_new unknown get (h.fixed n v fixed)
  case known =>
    intro n v there
    rw [get] at there
    rw [vars, Array.mem_push]
    split at there
    · next same =>
      cases there
      exact .inr (.inr (by rw [same]))
    · exact (h.known n v there).imp id .inl
  case vars =>
    intro n v mem
    rw [vars, Array.mem_push] at mem
    obtain mem | ⟨rfl, rfl⟩ := mem
    · have old := h.vars n v mem
      exact ⟨get?_of_new unknown get old.1, old.2⟩
    · refine ⟨by rw [get, if_pos rfl], fun w fixed => ?_⟩
      have there := h.fixed _ w fixed
      rw [unknown] at there
      cases there
  case index =>
    intro i n v at_i
    rw [vars, Array.getElem?_push] at at_i
    split at at_i
    · next last' =>
      cases at_i
      rw [last, last']
    · exact h.index i n v at_i
  case next =>
    rw [number, succ, size]
    omega
  case bound =>
    rw [number, UInt16.le_iff_toNat_le, succ]
    omega

/-- Resolving a name keeps a numbered table numbered, knows the name and forgets none. -/
theorem Numbered.resolve? (h : t.Numbered Fixed) (resolved : t.resolve? name = some (addr, next)) :
    next.Numbered Fixed ∧ next.get? name = some addr ∧
      ∀ n v, t.get? n = some v → next.get? n = some v := by
  have here := get?_of_resolve? resolved
  obtain ⟨-, rfl⟩ | ⟨unknown, rfl, free, vars, number, get⟩ := resolve?_eq_some resolved
  · exact ⟨h, here, fun _ _ => id⟩
  · exact ⟨h.push unknown free vars number get, here, fun n v => get?_of_new unknown get⟩

/-- The first table knows exactly the predefined names. -/
theorem get?_initial {n : String} {v : UInt16} :
    initial.get? n = some v ↔ (n, v) ∈ predefined := by
  have distinct : predefined.Pairwise fun a b => ¬compare a.1 b.1 = .eq := by decide
  constructor
  · intro there
    cases listed : (predefined.map Prod.fst).contains n with
    | false =>
      have unknown : initial.get? n = none :=
        Std.TreeMap.getElem?_ofList_of_contains_eq_false listed
      exact absurd (there.symm.trans unknown) (by simp)
    | true =>
      rw [List.contains_iff_mem, List.mem_map] at listed
      obtain ⟨⟨_, w⟩, mem, rfl⟩ := listed
      have known : initial.get? _ = some w :=
        Std.TreeMap.getElem?_ofList_of_mem Std.ReflCmp.compare_self distinct mem
      rw [known] at there
      cases there
      exact mem
  · exact fun mem => Std.TreeMap.getElem?_ofList_of_mem Std.ReflCmp.compare_self distinct mem

end SymbolTable

/-! ## The first pass -/

/-- The statements of located lines. -/
abbrev statementsOf (located : List Located) : List (Statement String) :=
  located.map Located.statement

/-- What the first pass does to a table: it enters the labels, under names that were unknown. -/
structure Defines (pc : Nat) (t : SymbolTable) (code : List (Statement String)) (count : Nat)
    (next : SymbolTable) : Prop where
  count : count = pc + wordCount code
  vars : next.vars = t.vars
  number : next.nextVariable = t.nextVariable
  old : ∀ n v, t.get? n = some v → next.get? n = some v
  new : ∀ n v, next.get? n = some v →
    t.get? n = some v ∨ ∃ k, (n, k) ∈ labelsFrom pc code ∧ v = k.toUInt16
  label : ∀ n k, (n, k) ∈ labelsFrom pc code →
    next.get? n = some k.toUInt16 ∧ k ≤ maxAddress.toNat ∧ t.get? n = none

/-- A label in front. -/
theorem Defines.label_cons {pc count : Nat} {t mid next : SymbolTable} {name : String}
    {code : List (Statement String)} (low : pc ≤ maxAddress.toNat)
    (added : t.addLabel? name pc.toUInt16 = some mid) (rest : Defines pc mid code count next) :
    Defines pc t (.label name :: code) count next := by
  obtain ⟨unknown, vars, number, get⟩ := addLabel?_eq_some added
  have here : mid.get? name = some pc.toUInt16 := by rw [get, if_pos rfl]
  refine ⟨rest.count, rest.vars.trans vars, rest.number.trans number, ?_, ?_, ?_⟩
  · exact fun n v there => rest.old n v (get?_of_new unknown get there)
  · intro n v there
    obtain old | ⟨k, mem, rfl⟩ := rest.new n v there
    · rw [get] at old
      split at old
      · next same =>
        cases old
        exact .inr ⟨pc, by rw [← same]; exact List.mem_cons_self, rfl⟩
      · exact .inl old
    · exact .inr ⟨k, List.mem_cons_of_mem _ mem, rfl⟩
  · intro n k mem
    obtain same | mem := List.mem_cons.1 mem
    · cases same
      exact ⟨rest.old _ _ here, low, unknown⟩
    · obtain ⟨there, bound, fresh⟩ := rest.label n k mem
      refine ⟨there, bound, ?_⟩
      rw [get] at fresh
      split at fresh
      · cases fresh
      · exact fresh

/-- A word in front. -/
theorem Defines.word_cons {pc count : Nat} {t next : SymbolTable} {s : Statement String}
    {code : List (Statement String)} (word : s.isWord = true)
    (rest : Defines (pc + 1) t code count next) : Defines pc t (s :: code) count next := by
  have same : labelsFrom pc (s :: code) = labelsFrom (pc + 1) code := by
    cases s with
    | label name => cases word
    | reference name => rfl
    | instr i => rfl
  refine ⟨?_, rest.vars, rest.number, rest.old, ?_, ?_⟩
  · rw [rest.count, wordCount, wordCount, List.countP_cons_of_pos word]
    omega
  · rw [same]
    exact rest.new
  · rw [same]
    exact rest.label

theorem defineLabels_defines {located : List Located} {pc count : Nat} {t next : SymbolTable}
    (h : defineLabels located pc t = .ok (count, next)) :
    Defines pc t (statementsOf located) count next := by
  induction located generalizing pc t with
  | nil =>
    cases h
    exact ⟨rfl, rfl, rfl, fun _ _ => id, fun _ _ => .inl, fun _ _ mem => nomatch mem⟩
  | cons l located ih =>
    obtain ⟨line, s⟩ := l
    cases s with
    | label name =>
      rw [defineLabels] at h
      split at h
      · cases h
      · next low =>
        split at h
        · cases h
        · next mid added => exact .label_cons (Nat.le_of_not_lt low) added (ih h)
    | reference name => exact .word_cons rfl (ih h)
    | instr i => exact .word_cons rfl (ih h)

/-! ## The second pass -/

namespace Statement

/-- The word of a statement that is no label. -/
def word? (address : String → UInt16) : Statement String → Option UInt16
  | label _ => none
  | reference name => some (Instr.encode (.address (address name)))
  | instr i => some i.encode

end Statement

/-- What a table answers, and zero for a name it does not know. -/
def SymbolTable.address (t : SymbolTable) (name : String) : UInt16 :=
  (t.get? name).getD 0

theorem SymbolTable.address_eq {t : SymbolTable} {name : String} {v : UInt16}
    (h : t.get? name = some v) : t.address name = v := by
  rw [address, h]
  rfl

/-- What the second pass does: it appends the words, and resolves every name that is referred to. -/
structure Emits (Fixed : String → UInt16 → Prop) (words : Array UInt16) (t : SymbolTable)
    (code : List (Statement String)) (p : Program) : Prop where
  numbered : p.symbols.Numbered Fixed
  old : ∀ n v, t.get? n = some v → p.symbols.get? n = some v
  known : ∀ n, .reference n ∈ code → ∃ v, p.symbols.get? n = some v
  words : p.words.toList = words.toList ++ code.filterMap (Statement.word? p.symbols.address)

theorem emitWords_emits {Fixed : String → UInt16 → Prop} {located : List Located}
    {words : Array UInt16} {t : SymbolTable} {p : Program} (numbered : t.Numbered Fixed)
    (h : emitWords located words t = .ok p) : Emits Fixed words t (statementsOf located) p := by
  induction located generalizing words t with
  | nil =>
    cases h
    exact ⟨numbered, fun _ _ => id, fun _ mem => (nomatch mem), by simp⟩
  | cons l located ih =>
    obtain ⟨line, s⟩ := l
    cases s with
    | label name =>
      obtain ⟨numbered, old, known, words⟩ := ih numbered h
      refine ⟨numbered, old, ?_, words⟩
      intro n mem
      obtain same | mem := List.mem_cons.1 mem
      · cases same
      · exact known n mem
    | instr i =>
      obtain ⟨numbered, old, known, words⟩ := ih numbered h
      refine ⟨numbered, old, ?_, ?_⟩
      · intro n mem
        obtain same | mem := List.mem_cons.1 mem
        · cases same
        · exact known n mem
      · rw [words, Array.toList_push, List.append_assoc]
        rfl
    | reference name =>
      rw [emitWords] at h
      split at h
      · cases h
      · next addr next resolved =>
        obtain ⟨numbered, here, kept⟩ := numbered.resolve? resolved
        obtain ⟨numbered, old, known, words⟩ := ih numbered h
        refine ⟨numbered, fun n v there => old n v (kept n v there), ?_, ?_⟩
        · intro n mem
          obtain same | mem := List.mem_cons.1 mem
          · cases same
            exact ⟨addr, old _ _ here⟩
          · exact known n mem
        · have value : p.symbols.address name = addr := address_eq (old _ _ here)
          rw [words, Array.toList_push, List.append_assoc, ← value]
          rfl

end HackPlatform.Asm
