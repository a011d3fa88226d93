import HackPlatform.Asm.Source
import HackPlatform.Proofs.Instr.Coding
import HackPlatform.Proofs.Text.Lines
import HackPlatform.Proofs.Text.Numeral

/-!
# Reading what was written

A statement whose names are names and whose instruction has a word is read back from its written
form. That form has neither blanks nor slashes, so cleaning a line does not change it.
-/

namespace HackPlatform.Asm

open Text (isBlank endsLine)

/-- A character that stays when a line is cleaned. -/
def isPlain (c : Char) : Bool :=
  !isBlank c && c != '/'

theorem isPlain_iff {c : Char} : isPlain c = true ↔ isBlank c = false ∧ c ≠ '/' := by
  simp [isPlain]

/-- A character between the blank and the last of ASCII is no blank. -/
theorem isPlain_of_visible {c : Char} (low : 0x20 < c.toNat) (high : c.toNat < 0x7F)
    (slash : c ≠ '/') : isPlain c = true := by
  refine isPlain_iff.2 ⟨?_, slash⟩
  simp only [isBlank, Text.blankRanges, List.any_cons, List.any_nil, Bool.or_false,
    Bool.or_eq_false_iff, Bool.and_eq_false_iff, decide_eq_false_iff_not]
  omega

/-- Letters and digits are visible. -/
theorem visible_of_isAlphanum {c : Char} (h : c.isAlphanum = true) :
    0x20 < c.toNat ∧ c.toNat < 0x7F := by
  have kinds : (c.isUpper || c.isLower || c.isDigit) = true := h
  have range (first last : Char) (inside : first.val ≤ c.val ∧ c.val ≤ last.val)
      (low : 0x20 < first.val.toNat) (high : last.val.toNat < 0x7F) :
      0x20 < c.toNat ∧ c.toNat < 0x7F :=
    ⟨Nat.lt_of_lt_of_le low (UInt32.le_iff_toNat_le.1 inside.1),
      Nat.lt_of_le_of_lt (UInt32.le_iff_toNat_le.1 inside.2) high⟩
  rw [Bool.or_eq_true, Bool.or_eq_true] at kinds
  rcases kinds with (upper | lower) | digit
  · exact range 'A' 'Z' (of_decide_eq_true upper) (by decide) (by decide)
  · have inside := Bool.and_eq_true_iff.1 lower
    exact range 'a' 'z' ⟨of_decide_eq_true inside.1, of_decide_eq_true inside.2⟩ (by decide)
      (by decide)
  · have inside := Bool.and_eq_true_iff.1 digit
    exact range '0' '9' ⟨of_decide_eq_true inside.1, of_decide_eq_true inside.2⟩ (by decide)
      (by decide)

theorem isPlain_of_isNameChar {c : Char} (h : isNameChar c = true) : isPlain c = true := by
  have slash : c ≠ '/' := by
    rintro rfl
    exact absurd h (by decide)
  have range : 0x20 < c.toNat ∧ c.toNat < 0x7F := by
    simp only [isNameChar, Bool.or_eq_true, beq_iff_eq] at h
    obtain (((h | rfl) | rfl) | rfl) | rfl := h
    · exact visible_of_isAlphanum h
    all_goals decide
  exact isPlain_of_visible range.1 range.2 slash

theorem isPlain_of_isDigit {c : Char} (h : c.isDigit = true) : isPlain c = true :=
  isPlain_of_isNameChar (by simp [isNameChar, Char.isAlphanum, h])

theorem isPlain_of_isName {s : List Char} (h : isName s = true) : ∀ c ∈ s, isPlain c = true :=
  fun c hc => isPlain_of_isNameChar ((isName_iff.1 h).1 c hc)

theorem isPlain_endsLine {c : Char} (h : isPlain c = true) : endsLine c = false := by
  rw [Bool.eq_false_iff]
  intro ends
  simp only [endsLine, Bool.or_eq_true, beq_iff_eq] at ends
  obtain rfl | rfl := ends <;> exact absurd h (by decide)

/-! ## Computations -/

/-- A sign that stands around a computation in a line. -/
def isMark (c : Char) : Bool :=
  c == '=' || c == ';' || c == '@' || c == '('

/-- The spelling of a computation: read back as it, and without the signs around it. -/
structure Spells (text : String) (comp : Comp) : Prop where
  read : Comp.ofText? text = some comp
  plain : ∀ c ∈ text.toList, isPlain c = true
  marks : ∀ c ∈ text.toList, isMark c = false
  filled : text.toList ≠ []

/-- What is checked of each character of a text holds of them all. -/
theorem plain_of_all {text : List Char}
    (h : (text.all fun c => isPlain c && !isMark c) = true) :
    ∀ c ∈ text, isPlain c = true ∧ isMark c = false := by
  intro c mem
  have both := List.all_eq_true.1 h c mem
  simpa using both

theorem spells_of_mem {row : String × Comp} (h : row ∈ Comp.table ++ Comp.exchanged) :
    Spells row.1 row.2 := by
  have all : ∀ row ∈ Comp.table ++ Comp.exchanged,
      Comp.ofText? row.1 = some row.2 ∧
        (row.1.toList.all fun c => isPlain c && !isMark c) = true ∧ row.1.toList ≠ [] := by
    decide
  obtain ⟨read, letters, filled⟩ := all row h
  have letters := plain_of_all letters
  exact ⟨read, fun c hc => (letters c hc).1, fun c hc => (letters c hc).2, filled⟩

theorem spells_of_isNamed {comp : Comp} (h : comp.isNamed = true) :
    Spells (comp.text?.getD "?") comp := by
  obtain ⟨row, found⟩ : ∃ row, Comp.table.find? (fun row => row.2 = comp) = some row :=
    Option.isSome_iff_exists.1 (List.find?_isSome.2 (List.any_eq_true.1 h))
  have chosen := List.find?_some found
  have same : row.2 = comp := of_decide_eq_true chosen
  have text : comp.text? = some row.1 := by
    rw [Comp.text?, found]
    rfl
  rw [text, ← same]
  exact spells_of_mem (List.mem_append_left _ (List.mem_of_find?_eq_some found))

/-- The letters of a destination set spell it. -/
theorem letters_dest (dest : Dest) :
    Dest.ofLetters? dest.text.toList = some dest ∧
      ∀ c ∈ dest.text.toList, isPlain c = true ∧ isMark c = false := by
  obtain ⟨a, d, m⟩ := dest
  constructor
  · cases a <;> cases d <;> cases m <;> decide
  · apply plain_of_all
    cases a <;> cases d <;> cases m <;> decide

/-- Only three letters name members of a destination set. -/
theorem mem_of_ofLetters? {letters : List Char} {dest : Dest}
    (h : Dest.ofLetters? letters = some dest) : ∀ c ∈ letters, c = 'A' ∨ c = 'D' ∨ c = 'M' := by
  unfold Dest.ofLetters? at h
  generalize Dest.none = start at h
  induction letters generalizing start with
  | nil => exact List.forall_mem_nil _
  | cons c letters ih =>
    rw [List.foldlM_cons] at h
    obtain ⟨next, added, rest⟩ := Option.bind_eq_some_iff.1 h
    refine List.forall_mem_cons.2 ⟨?_, ih next rest⟩
    unfold Dest.ofLetters?.add at added
    split at added
    · exact .inl rfl
    · exact .inr (.inl rfl)
    · exact .inr (.inr rfl)
    · cases added

theorem letters_jump (jump : Jump) :
    ∀ c ∈ jump.text.toList, isPlain c = true ∧ isMark c = false := by
  apply plain_of_all
  cases jump <;> decide

namespace Statement

/-- The statement has a written form of its own. -/
def Proper : Statement String → Prop
  | label name => isName name.toList = true
  | reference name => isName name.toList = true
  | instr i => i.Encodable

theorem readJump_text {jump : Jump} (h : jump ≠ .never) :
    readJump jump.text.toList = .ok jump := by
  rw [readJump, String.ofList_toList, Jump.ofText?_text]
  cases jump <;> first | rfl | exact absurd rfl h

/-- What stands behind a destination, or all of a computation without one. -/
def tailText (comp : String) (jump : Jump) : List Char :=
  comp.toList ++ (if jump = .never then "" else ";" ++ jump.text).toList

theorem readComputation_tailText {text : String} {comp : Comp} (spells : Spells text comp)
    (dest : Dest) (jump : Jump) :
    readComputation dest (tailText text jump) = .ok (.instr (.compute dest comp jump)) := by
  have inside : ';' ∉ text.toList := fun mem => absurd (spells.marks _ mem) (by decide)
  by_cases never : jump = .never
  · subst never
    rw [tailText, if_pos rfl, readComputation, String.toList_empty, List.append_nil,
      Text.splitOnce?_eq_none inside]
    simp only [String.ofList_toList, spells.read, pure, Except.pure, bind, Except.bind]
  · have cut : tailText text jump = text.toList ++ ';' :: jump.text.toList := by
      rw [tailText, if_neg never, String.toList_append]
      rfl
    rw [cut, readComputation, Text.splitOnce?_append_cons inside]
    simp only [readJump_text never, Except.map, String.ofList_toList, spells.read, bind, Except.bind]

theorem text_compute (dest : Dest) (comp : Comp) (jump : Jump) :
    (text (.instr (.compute dest comp jump))).toList =
      (if dest.isNone then "" else dest.text ++ "=").toList ++
        tailText (comp.text?.getD "?") jump := by
  simp only [text, Instr.text, tailText, String.toList_append, List.append_assoc]

/-- The first character of a text, if it is not empty, is that of its front. -/
theorem mem_head?_append {front rest : List Char} (h : front ≠ []) :
    ∀ c ∈ (front ++ rest).head?, c ∈ front := by
  obtain ⟨x, front, rfl⟩ := List.exists_cons_of_ne_nil h
  rintro c ⟨rfl⟩
  exact List.mem_cons_self

/-- A line that is neither a label nor a load is a computation. -/
theorem read_computation {line : List Char} (label : line.head? ≠ some '(')
    (load : line.head? ≠ some '@') :
    read line =
      match Text.splitOnce? '=' line with
      | some (dest, rest) =>
        match Dest.ofLetters? dest with
        | some dest => readComputation dest rest
        | none => .error (.malformed .badDestination)
      | none => readComputation .none line := by
  unfold read
  split
  · exact absurd rfl label
  · exact absurd rfl load
  · rfl

theorem tailText_marks {text : String} {comp : Comp} (spells : Spells text comp) (jump : Jump) :
    '=' ∉ tailText text jump ∧ ∀ c ∈ (tailText text jump).head?, isMark c = false := by
  refine ⟨?_, ?_⟩
  · rw [tailText, List.mem_append, not_or]
    refine ⟨fun mem => absurd (spells.marks _ mem) (by decide), ?_⟩
    cases jump <;> decide
  · intro c hc
    exact spells.marks c (mem_head?_append spells.filled c hc)

/-- The letters of a destination, if there are any. -/
theorem text_ne_nil_of_isNone {dest : Dest} (h : dest.isNone = false) : dest.text.toList ≠ [] := by
  obtain ⟨a, d, m⟩ := dest
  cases a <;> cases d <;> cases m <;> first | decide | cases h

/-- A computation starts with no mark. -/
theorem head_compute {dest : Dest} {comp : Comp} {jump : Jump} (h : comp.isNamed = true) :
    ∀ c ∈ (text (.instr (.compute dest comp jump))).toList.head?, isMark c = false := by
  rw [text_compute]
  cases drop : dest.isNone with
  | true => exact (tailText_marks (spells_of_isNamed h) jump).2
  | false =>
    intro c head
    rw [if_neg Bool.false_ne_true, String.toList_append, List.append_assoc] at head
    exact ((letters_dest dest).2 c (mem_head?_append (text_ne_nil_of_isNone drop) c head)).2

/-- A computation without destination is read. -/
theorem read_bare {text : String} {comp : Comp} (spells : Spells text comp) (jump : Jump) :
    read (tailText text jump) = .ok (.instr (.compute .none comp jump)) := by
  obtain ⟨equals, start⟩ := tailText_marks spells jump
  rw [read_computation (fun first => absurd (start _ first) (by decide))
    (fun first => absurd (start _ first) (by decide)), Text.splitOnce?_eq_none equals]
  exact readComputation_tailText spells .none jump

/-- A computation behind the letters of its destination is read. -/
theorem read_assigned {letters : List Char} {dest : Dest} (named : Dest.ofLetters? letters = some dest)
    {text : String} {comp : Comp} (spells : Spells text comp) (jump : Jump) :
    read (letters ++ '=' :: tailText text jump) = .ok (.instr (.compute dest comp jump)) := by
  have marks : ∀ c ∈ letters, isMark c = false := by
    intro c mem
    rcases mem_of_ofLetters? named c mem with rfl | rfl | rfl <;> rfl
  have start (c : Char) (mark : isMark c = true) (other : c ≠ '=') :
      (letters ++ '=' :: tailText text jump).head? ≠ some c := by
    intro first
    cases letters with
    | nil => exact other (Option.some.inj first).symm
    | cons x letters =>
      obtain rfl : x = c := Option.some.inj first
      rw [marks x List.mem_cons_self] at mark
      cases mark
  rw [read_computation (start _ rfl (by decide)) (start _ rfl (by decide)),
    Text.splitOnce?_append_cons fun mem => absurd (marks _ mem) (by decide)]
  simp only [named]
  exact readComputation_tailText spells dest jump

theorem read_compute {dest : Dest} {comp : Comp} {jump : Jump} (h : comp.isNamed = true) :
    read (text (.instr (.compute dest comp jump))).toList = .ok (.instr (.compute dest comp jump)) := by
  have spells := spells_of_isNamed h
  rw [text_compute]
  cases drop : dest.isNone with
  | true =>
    have none : dest = .none := by
      obtain ⟨a, d, m⟩ := dest
      simp only [Dest.isNone, Bool.not_eq_true', Bool.or_eq_false_iff] at drop
      obtain ⟨⟨rfl, rfl⟩, rfl⟩ := drop
      rfl
    subst none
    exact read_bare spells jump
  | false =>
    have whole := read_assigned (letters_dest dest).1 spells jump
    simpa using whole

/-- Digits are read by their value. -/
theorem readOperand_digits {digits : List Char} (filled : digits ≠ [])
    (digit : ∀ c ∈ digits, c.isDigit = true) :
    readOperand digits =
      if UInt32.size ≤ Nat.ofDigitChars 10 digits 0 then .error (.malformed .badNumber)
      else if maxAddress.toNat < Nat.ofDigitChars 10 digits 0 then
        .error (.range (String.ofList digits))
      else .ok (.load (Nat.ofDigitChars 10 digits 0).toUInt16) := by
  have first : (digits.head?.map Char.isDigit).getD false = true := by
    obtain ⟨c, rest, rfl⟩ := List.exists_cons_of_ne_nil filled
    exact digit c List.mem_cons_self
  rw [readOperand, if_pos first, Text.readDecimal?_of_digits filled digit]

theorem readOperand_of_low {digits : List Char} {value : UInt16} (filled : digits ≠ [])
    (digit : ∀ c ∈ digits, c.isDigit = true)
    (number : Nat.ofDigitChars 10 digits 0 = value.toNat) (low : value ≤ maxAddress) :
    readOperand digits = .ok (.load value) := by
  have low : value.toNat ≤ maxAddress.toNat := low
  have small : maxAddress.toNat < UInt32.size := by decide
  rw [readOperand_digits filled digit, number, if_neg (by omega), if_neg (by omega)]
  simp

theorem read_load {value : UInt16} (h : value ≤ maxAddress) :
    read (text (.load value)).toList = .ok (.load value) := by
  have shape : (text (.load value)).toList = '@' :: (Text.decimal value).toList := by
    simp [load, text, Instr.text]
  have number : Nat.ofDigitChars 10 (Text.decimal value).toList 0 = value.toNat := by
    rw [Text.decimal, Nat.toList_repr, Nat.ofDigitChars_ten_toDigits]
  rw [shape]
  exact readOperand_of_low (Text.decimal_ne_nil value) (fun _ => Text.isDigit_of_mem_decimal) number h

theorem readOperand_name {name : List Char} (named : isName name = true) :
    readOperand name = .ok (.reference (String.ofList name)) := by
  obtain ⟨c, first, letter⟩ := (isName_iff.1 named).2
  simp [readOperand, first, letter, named]

/-- A statement with a written form of its own is read back from it. -/
theorem read_text {s : Statement String} (h : s.Proper) : read s.text.toList = .ok s := by
  cases s with
  | label name =>
    have shape : (text (.label name)).toList = '(' :: (name.toList ++ [')']) := by
      simp [text]
    have named : isName name.toList = true := h
    simp [shape, read, readLabel, named]
  | reference name =>
    have shape : (text (.reference name)).toList = '@' :: name.toList := by
      simp [text]
    rw [shape]
    exact (readOperand_name h).trans (by rw [String.ofList_toList])
  | instr i =>
    cases i with
    | address value => exact read_load h
    | compute dest comp jump => exact read_compute h

theorem text_plain {s : Statement String} (h : s.Proper) : ∀ c ∈ s.text.toList, isPlain c = true := by
  cases s with
  | label name =>
    have plain := isPlain_of_isName h
    simp only [text, String.toList_append, List.forall_mem_append]
    exact ⟨⟨List.all_eq_true.1 (by decide), plain⟩, List.all_eq_true.1 (by decide)⟩
  | reference name =>
    have plain := isPlain_of_isName h
    simp only [text, String.toList_append, List.forall_mem_append]
    exact ⟨List.all_eq_true.1 (by decide), plain⟩
  | instr i =>
    cases i with
    | address value =>
      simp only [text, Instr.text, String.toList_append, List.forall_mem_append]
      exact ⟨List.all_eq_true.1 (by decide),
        fun c hc => isPlain_of_isDigit (Text.isDigit_of_mem_decimal hc)⟩
    | compute dest comp jump =>
      have spells := spells_of_isNamed h
      rw [text_compute, tailText]
      simp only [List.forall_mem_append]
      refine ⟨?_, spells.plain, ?_⟩
      · split
        · exact List.all_eq_true.1 (by decide)
        · rw [String.toList_append, List.forall_mem_append]
          exact ⟨fun c hc => ((letters_dest dest).2 c hc).1, List.all_eq_true.1 (by decide)⟩
      · split
        · exact List.all_eq_true.1 (by decide)
        · rw [String.toList_append, List.forall_mem_append]
          exact ⟨List.all_eq_true.1 (by decide), fun c hc => (letters_jump jump c hc).1⟩

theorem text_ne_nil {s : Statement String} (h : s.Proper) : s.text.toList ≠ [] := by
  cases s with
  | label name => simp [text]
  | reference name => simp [text]
  | instr i =>
    cases i with
    | address value => simp [text, Instr.text]
    | compute dest comp jump =>
      rw [text_compute, tailText]
      simp [(spells_of_isNamed h).filled]

theorem Proper.blanks {s : Statement String} (h : s.Proper) :
    ∀ c ∈ s.text.toList, isBlank c = false :=
  fun c hc => (isPlain_iff.1 (text_plain h c hc)).1

/-- A proper statement is written on one line. -/
theorem Proper.endsLine_text {s : Statement String} (h : s.Proper) :
    ∀ c ∈ s.text.toList, endsLine c = false :=
  fun c mem => isPlain_endsLine (text_plain h c mem)

/-- Cleaning leaves a written form as it is. -/
theorem Proper.cleaned {s : Statement String} (h : s.Proper) :
    Text.squeeze (Text.beforeComment s.text.toList) = s.text.toList := by
  have slash : '/' ∉ s.text.toList := fun mem => (isPlain_iff.1 (text_plain h _ mem)).2 rfl
  rw [Text.beforeComment_eq_self slash, Text.squeeze_eq_self h.blanks]

end Statement

end HackPlatform.Asm
