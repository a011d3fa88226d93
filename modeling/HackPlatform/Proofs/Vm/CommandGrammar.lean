import Mathlib.Data.List.Basic
import HackPlatform.Proofs.Text.Words
import HackPlatform.Proofs.Vm.Spelling

/-!
# The grammar of commands

The words of a text spell a command, or they have a fault, and never both. What a reader of commands
answers is determined by that, with the first fault in a fixed order.
-/

namespace HackPlatform.Vm

open Text (Numeral Spaced withoutZeros)

theorem Segment.ofName?_eq_none {word : String} (other : ∀ segment : Segment, segment.name ≠ word) :
    ofName? word = none :=
  List.find?_eq_none.2 fun segment _ same => other segment (beq_iff_eq.1 same)

/-- The words that a command may start with, each with the number of words that follow. -/
def firstWords : List (String × Nat) :=
  [("push", 2), ("pop", 2), ("label", 1), ("goto", 1), ("if-goto", 1), ("function", 2), ("call", 2),
   ("return", 0), ("add", 0), ("sub", 0), ("neg", 0), ("eq", 0), ("gt", 0), ("lt", 0), ("and", 0),
   ("or", 0), ("not", 0)]

theorem Operator.mem_firstWords (op : Operator) : (op.name, 0) ∈ firstWords := by
  cases op with
  | compare r => cases r <;> decide
  | _ => decide

theorem Kind.mem_firstWords {kind : Kind} (keyword : kind ≠ .arithmetic) :
    (kind.keyword, kind.operandCount) ∈ firstWords := by
  cases kind with
  | arithmetic => exact absurd rfl keyword
  | _ => decide

/-- Only operators and keywords start commands. -/
theorem mem_firstWords {word : String} {n : Nat} (h : (word, n) ∈ firstWords) :
    (∃ op : Operator, word = op.name ∧ n = 0) ∨
      ∃ kind : Kind, kind ≠ .arithmetic ∧ word = kind.keyword ∧ n = kind.operandCount := by
  have all : firstWords =
      ([.push, .pop, .label, .goto, .ifGoto, .function, .call, .ret].map fun kind =>
        (Kind.keyword kind, Kind.operandCount kind)) ++
      Operator.all.map fun op => (op.name, 0) := rfl
  rw [all, List.mem_append, List.mem_map, List.mem_map] at h
  rcases h with ⟨kind, mem, same⟩ | ⟨op, -, same⟩
  · cases same
    refine .inr ⟨kind, ?_, rfl, rfl⟩
    rintro rfl
    exact absurd mem (by decide)
  · cases same
    exact .inl ⟨op, rfl, rfl⟩

theorem classify_of_unknown {word : String} (other : ∀ n, (word, n) ∉ firstWords) :
    Kind.classify word = .arithmetic ∧ Operator.ofName? word = none := by
  constructor
  · rw [Kind.classify, List.find?_eq_none.2]
    · rfl
    · intro kind mem same
      refine other kind.operandCount (beq_iff_eq.1 same ▸ Kind.mem_firstWords ?_)
      rintro rfl
      exact absurd mem (by decide)
  · refine List.find?_eq_none.2 fun op _ same => other 0 ?_
    exact beq_iff_eq.1 same ▸ op.mem_firstWords

namespace Command

/-! ## Commands and faults -/

/-- Words spell a command. A number may have leading zeros. -/
inductive Spelled : List String → Command → Prop
  | operate (op : Operator) : Spelled [op.name] (.operate op)
  | push (segment : Segment) {digits : String} {index : UInt16}
      (number : Numeral digits.toList index) :
      Spelled ["push", segment.name, digits] (.push segment index)
  | pop (segment : Segment) {digits : String} {index : UInt16}
      (number : Numeral digits.toList index) :
      Spelled ["pop", segment.name, digits] (.pop segment index)
  | label (name : String) : Spelled ["label", name] (.label name)
  | goto (name : String) : Spelled ["goto", name] (.goto name)
  | ifGoto (name : String) : Spelled ["if-goto", name] (.ifGoto name)
  | function (name : String) {digits : String} {localCount : UInt16}
      (number : Numeral digits.toList localCount) :
      Spelled ["function", name, digits] (.function name localCount)
  | call (name : String) {digits : String} {argCount : UInt16}
      (number : Numeral digits.toList argCount) :
      Spelled ["call", name, digits] (.call name argCount)
  | ret : Spelled ["return"] .ret

/-- The first fault in words that spell no command. -/
inductive Faulty : List String → ParseError → Prop
  | empty : Faulty [] (.unknownCommand "")
  | first {word : String} (operands : List String) (other : ∀ n, (word, n) ∉ firstWords) :
      Faulty (word :: operands) (.unknownCommand word)
  | count {word : String} {n : Nat} {operands : List String} (known : (word, n) ∈ firstWords)
      (other : operands.length ≠ n) : Faulty (word :: operands) (.arity word n operands.length)
  | segment {word segment : String} (digits : String) (transfer : word ∈ ["push", "pop"])
      (other : ∀ s : Segment, s.name ≠ segment) :
      Faulty [word, segment, digits] (.unknownSegment segment)
  | index {word digits : String} (transfer : word ∈ ["push", "pop"]) (segment : Segment)
      (other : ∀ w, ¬Numeral digits.toList w) :
      Faulty [word, segment.name, digits] (.badInteger digits)
  | number {word digits : String} (linkage : word ∈ ["function", "call"]) (name : String)
      (other : ∀ w, ¬Numeral digits.toList w) :
      Faulty [word, name, digits] (.badInteger digits)

theorem readNumber_eq_ok {digits : String} {w : UInt16} (h : Numeral digits.toList w) :
    readNumber digits = .ok w := by
  rw [readNumber, Text.readWord?_eq_some_iff.2 h]

theorem readNumber_eq_error {digits : String} (other : ∀ w, ¬Numeral digits.toList w) :
    readNumber digits = .error (.badInteger digits) := by
  rw [readNumber, Option.eq_none_iff_forall_ne_some.2 fun w read =>
    other w (Text.readWord?_eq_some_iff.1 read)]

theorem readPlace_of_name (segment : Segment) (digits : String) :
    readPlace segment.name digits = (readNumber digits).map (segment, ·) := by
  rw [readPlace, Segment.ofName?_name]

variable {ws : List String} {c : Command} {e : ParseError}

/-- What is spelled is read. -/
theorem Spelled.ofWords_eq (h : Spelled ws c) : ofWords (ws.headD "") ws.tail = .ok c := by
  cases h with
  | operate op =>
    cases op with
    | compare r => cases r <;> rfl
    | _ => rfl
  | @push segment digits index number | @pop segment digits index number =>
    show (readPlace segment.name digits).map _ = _
    rw [readPlace_of_name, readNumber_eq_ok number]
    rfl
  | function name number | call name number =>
    show (readNumber _).map _ = _
    rw [readNumber_eq_ok number]
    rfl
  | _ => rfl

theorem ofWords_count {kind : Kind} {operands : List String} (keyword : kind ≠ .arithmetic)
    (other : operands.length ≠ kind.operandCount) :
    ofWords kind.keyword operands = .error (.arity kind.keyword kind.operandCount operands.length) := by
  cases kind with
  | arithmetic => exact absurd rfl keyword
  | ret =>
    cases operands with
    | nil => exact absurd rfl other
    | cons => rfl
  | label | goto | ifGoto =>
    rcases operands with _ | ⟨_, _ | ⟨_, _⟩⟩ <;> first | rfl | exact absurd rfl other
  | _ =>
    rcases operands with _ | ⟨_, _ | ⟨_, _ | ⟨_, _⟩⟩⟩ <;> first | rfl | exact absurd rfl other

theorem ofWords_transfer {word segment digits : String} (transfer : word ∈ ["push", "pop"])
    (refused : readPlace segment digits = .error e) : ofWords word [segment, digits] = .error e := by
  simp only [List.mem_cons, List.not_mem_nil, or_false] at transfer
  rcases transfer with rfl | rfl
  all_goals
    show (readPlace segment digits).map _ = _
    rw [refused]
    rfl

theorem ofWords_linkage {word name digits : String} (linkage : word ∈ ["function", "call"])
    (refused : readNumber digits = .error e) : ofWords word [name, digits] = .error e := by
  simp only [List.mem_cons, List.not_mem_nil, or_false] at linkage
  rcases linkage with rfl | rfl
  all_goals
    show (readNumber digits).map _ = _
    rw [refused]
    rfl

/-- A fault is reported. -/
theorem Faulty.ofWords_eq (h : Faulty ws e) : ofWords (ws.headD "") ws.tail = .error e := by
  cases h with
  | empty => rfl
  | first operands other =>
    obtain ⟨kind, name⟩ := classify_of_unknown other
    simp only [List.headD_cons, List.tail_cons, ofWords, kind, name]
  | @count word n operands known other =>
    rcases mem_firstWords known with ⟨op, rfl, rfl⟩ | ⟨kind, keyword, rfl, rfl⟩
    · obtain ⟨x, rest, rfl⟩ := List.exists_cons_of_length_pos (Nat.pos_of_ne_zero other)
      cases op with
      | compare r => cases r <;> rfl
      | _ => rfl
    · exact ofWords_count keyword other
  | segment digits transfer other =>
    apply ofWords_transfer transfer
    rw [readPlace, Segment.ofName?_eq_none other]
  | index transfer segment other =>
    apply ofWords_transfer transfer
    rw [readPlace_of_name, readNumber_eq_error other]
    rfl
  | number linkage name other => exact ofWords_linkage linkage (readNumber_eq_error other)

theorem transfer_spelled_or_faulty {word segment digits : String} (transfer : word ∈ ["push", "pop"])
    (command : Segment → UInt16 → Command)
    (spelled : ∀ (s : Segment) (w : UInt16), Numeral digits.toList w →
      Spelled [word, s.name, digits] (command s w)) :
    (∃ c, Spelled [word, segment, digits] c) ∨ ∃ e, Faulty [word, segment, digits] e := by
  by_cases named : ∃ s : Segment, s.name = segment
  case neg => exact .inr ⟨_, .segment digits transfer (not_exists.1 named)⟩
  obtain ⟨s, rfl⟩ := named
  by_cases number : ∃ w, Numeral digits.toList w
  case neg => exact .inr ⟨_, .index transfer s (not_exists.1 number)⟩
  obtain ⟨w, number⟩ := number
  exact .inl ⟨_, spelled s w number⟩

theorem linkage_spelled_or_faulty {word name digits : String} (linkage : word ∈ ["function", "call"])
    (command : UInt16 → Command)
    (spelled : ∀ w, Numeral digits.toList w → Spelled [word, name, digits] (command w)) :
    (∃ c, Spelled [word, name, digits] c) ∨ ∃ e, Faulty [word, name, digits] e := by
  by_cases number : ∃ w, Numeral digits.toList w
  case neg => exact .inr ⟨_, .number linkage name (not_exists.1 number)⟩
  obtain ⟨w, number⟩ := number
  exact .inl ⟨_, spelled w number⟩

theorem keyword_spelled_or_faulty {kind : Kind} {operands : List String}
    (keyword : kind ≠ .arithmetic) (count : operands.length = kind.operandCount) :
    (∃ c, Spelled (kind.keyword :: operands) c) ∨ ∃ e, Faulty (kind.keyword :: operands) e := by
  cases kind with
  | arithmetic => exact absurd rfl keyword
  | ret =>
    obtain rfl := List.length_eq_zero_iff.1 count
    exact .inl ⟨_, .ret⟩
  | label =>
    obtain ⟨name, rfl⟩ := List.length_eq_one_iff.1 count
    exact .inl ⟨_, .label name⟩
  | goto =>
    obtain ⟨name, rfl⟩ := List.length_eq_one_iff.1 count
    exact .inl ⟨_, .goto name⟩
  | ifGoto =>
    obtain ⟨name, rfl⟩ := List.length_eq_one_iff.1 count
    exact .inl ⟨_, .ifGoto name⟩
  | push =>
    obtain ⟨segment, digits, rfl⟩ := List.length_eq_two.1 count
    exact transfer_spelled_or_faulty (by decide) .push fun s w number => .push s number
  | pop =>
    obtain ⟨segment, digits, rfl⟩ := List.length_eq_two.1 count
    exact transfer_spelled_or_faulty (by decide) .pop fun s w number => .pop s number
  | function =>
    obtain ⟨name, digits, rfl⟩ := List.length_eq_two.1 count
    exact linkage_spelled_or_faulty (by decide) (.function name) fun w number => .function name number
  | call =>
    obtain ⟨name, digits, rfl⟩ := List.length_eq_two.1 count
    exact linkage_spelled_or_faulty (by decide) (.call name) fun w number => .call name number

/-- Words spell a command or have a fault. -/
theorem spelled_or_faulty (ws : List String) : (∃ c, Spelled ws c) ∨ ∃ e, Faulty ws e := by
  cases ws with
  | nil => exact .inr ⟨_, .empty⟩
  | cons word operands =>
    by_cases known : ∃ n, (word, n) ∈ firstWords
    case neg => exact .inr ⟨_, .first operands (not_exists.1 known)⟩
    obtain ⟨n, known⟩ := known
    by_cases count : operands.length = n
    case neg => exact .inr ⟨_, .count known count⟩
    rcases mem_firstWords known with ⟨op, rfl, rfl⟩ | ⟨kind, keyword, rfl, rfl⟩
    · obtain rfl := List.length_eq_zero_iff.1 count
      exact .inl ⟨_, .operate op⟩
    · exact keyword_spelled_or_faulty keyword count

/-- A reader that answers every spelling and every fault answers nothing else. -/
theorem ofWords_eq_ok_iff : ofWords (ws.headD "") ws.tail = .ok c ↔ Spelled ws c := by
  constructor
  · intro read
    rcases spelled_or_faulty ws with ⟨c', spelled⟩ | ⟨e, faulty⟩
    · cases spelled.ofWords_eq.symm.trans read
      exact spelled
    · cases faulty.ofWords_eq.symm.trans read
  · exact Spelled.ofWords_eq

theorem ofWords_eq_error_iff : ofWords (ws.headD "") ws.tail = .error e ↔ Faulty ws e := by
  constructor
  · intro read
    rcases spelled_or_faulty ws with ⟨c, spelled⟩ | ⟨e', faulty⟩
    · cases spelled.ofWords_eq.symm.trans read
    · cases faulty.ofWords_eq.symm.trans read
      exact faulty
  · exact Faulty.ofWords_eq

/-- The first argument is the second word, or the operator. -/
theorem Spelled.arg1_eq_ok_iff (h : Spelled ws c) {x : String} :
    c.arg1 = .ok x ↔ ws[1]? = some x ∨ ws = [x] ∧ c ≠ .ret := by
  cases h <;> simp [arg1]

/-- The second argument is the number that the third word is a numeral of. -/
theorem Spelled.arg2_eq_ok_iff (h : Spelled ws c) {w : UInt16} :
    c.arg2 = .ok w ↔ ∃ digits, ws[2]? = some digits ∧ Numeral digits.toList w := by
  have same {digits : String} {v : UInt16} (number : Numeral digits.toList v) :
      v = w ↔ Numeral digits.toList w :=
    ⟨fun e => e ▸ number, fun number' => number.unique number'⟩
  cases h with
  | push segment number | pop segment number => simp [arg2, same number]
  | function name number | call name number => simp [arg2, same number]
  | _ => simp [arg2]

/-- The words that a command is written in, from words that spell it. -/
theorem Spelled.words_eq (h : Spelled ws c) :
    c.words = ws.modify 2 fun digits => .ofList (withoutZeros digits.toList) := by
  have written {digits : String} {w : UInt16} (number : Numeral digits.toList w) :
      Text.decimal w = .ofList (withoutZeros digits.toList) := by
    rw [← number.toList_decimal, String.ofList_toList]
  cases h with
  | push segment number | pop segment number => rw [words, written number]; rfl
  | function name number | call name number => rw [words, written number]; rfl
  | _ => rfl

/-- A command is written in its words with single blanks between them, but with the numeral of its
number that has no leading zeros. -/
theorem Spelled.text_eq (h : Spelled ws c) :
    c.text = " ".intercalate (ws.modify 2 fun digits => .ofList (withoutZeros digits.toList)) := by
  rw [← h.words_eq, ← String.toList_inj, String.toList_intercalate, toList_text]
  rfl

/-- What the reader of commands makes of a text, whose words are its runs of characters that are not
blank. A command is written as it was read, up to blanks and leading zeros, and what is written for
a command is read as that command. -/
structure ParsedExactly (text : String) : Prop where
  words : ∀ ws, Spaced text.toList ws ↔ (wordsOf text).map String.toList = ws
  accepted : ∀ c, parse text = .ok c ↔ Spelled (wordsOf text) c
  refused : ∀ e, parse text = .error e ↔ Faulty (wordsOf text) e
  arg1 : ∀ c, parse text = .ok c → ∀ x,
    c.arg1 = .ok x ↔ (wordsOf text)[1]? = some x ∨ wordsOf text = [x] ∧ c ≠ .ret
  arg2 : ∀ c, parse text = .ok c → ∀ w,
    c.arg2 = .ok w ↔ ∃ digits, (wordsOf text)[2]? = some digits ∧ Numeral digits.toList w
  shown : ∀ c, parse text = .ok c → c.text =
    " ".intercalate ((wordsOf text).modify 2 fun digits => .ofList (withoutZeros digits.toList))
  back : ∀ c : Command, c.Worded → c.text = text → parse text = .ok c

/-- Reading a command follows the grammar, and writing is the inverse of reading. -/
theorem parse_exact (text : String) : ParsedExactly text := by
  constructor
  case words =>
    intro ws
    have cut : (wordsOf text).map String.toList = Text.words text.toList := by
      simp [wordsOf]
    rw [cut, Text.words_eq_iff]
  case accepted => exact fun c => ofWords_eq_ok_iff
  case refused => exact fun e => ofWords_eq_error_iff
  case arg1 => exact fun c read x => (ofWords_eq_ok_iff.1 read).arg1_eq_ok_iff
  case arg2 => exact fun c read w => (ofWords_eq_ok_iff.1 read).arg2_eq_ok_iff
  case shown => exact fun c read => (ofWords_eq_ok_iff.1 read).text_eq
  case back =>
    rintro c worded rfl
    exact parse_text worded

end Command

end HackPlatform.Vm
