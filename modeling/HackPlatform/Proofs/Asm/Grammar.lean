import HackPlatform.Asm.Program
import HackPlatform.Proofs.Asm.Reading
import Mathlib.Data.List.Forall2

/-!
# The grammar of a line

What a cleaned line denotes, said by its parts instead of by the reader: a label between parentheses,
a name or a numeral behind `@`, or a computation with an optional destination in front and an
optional jump behind it. Whatever reads as a statement denotes that statement.
-/

namespace HackPlatform.Asm

/-- The part of a line in front of its computation. -/
inductive DestPart : List Char → Dest → Prop
  | absent : DestPart [] .none
  | letters {letters : List Char} {dest : Dest} (named : Dest.ofLetters? letters = some dest) :
    DestPart (letters ++ ['=']) dest

/-- The part of a line behind its computation. -/
inductive JumpPart : List Char → Jump → Prop
  | absent : JumpPart [] .never
  | named {jump : Jump} (jumps : jump ≠ .never) : JumpPart (';' :: jump.text.toList) jump

/-- A cleaned line denotes a statement. -/
inductive Denotes : List Char → Statement String → Prop
  | label {name : List Char} (named : isName name = true) :
    Denotes ('(' :: (name ++ [')'])) (.label (String.ofList name))
  | reference {name : List Char} (named : isName name = true) :
    Denotes ('@' :: name) (.reference (String.ofList name))
  | load {digits : List Char} {value : UInt16} (filled : digits ≠ [])
    (digit : ∀ c ∈ digits, c.isDigit = true)
    (number : Nat.ofDigitChars 10 digits 0 = value.toNat) (low : value ≤ maxAddress) :
    Denotes ('@' :: digits) (.load value)
  | compute {front text back : List Char} {dest : Dest} {comp : Comp} {jump : Jump}
    (before : DestPart front dest)
    (spelled : (String.ofList text, comp) ∈ Comp.table ++ Comp.exchanged)
    (behind : JumpPart back jump) :
    Denotes (front ++ text ++ back) (.instr (.compute dest comp jump))

/-- Digits whose value fits 32 bits, but no instruction. -/
structure TooLarge (digits : List Char) : Prop where
  filled : digits ≠ []
  digit : ∀ c ∈ digits, c.isDigit = true
  high : maxAddress.toNat < Nat.ofDigitChars 10 digits 0
  bound : Nat.ofDigitChars 10 digits 0 < UInt32.size

namespace Statement

theorem denotes_of_readLabel {inner : List Char} {s : Statement String}
    (h : readLabel inner = .ok s) : Denotes ('(' :: inner) s := by
  unfold readLabel at h
  by_cases closed : inner.getLast? = some ')'
  · rw [if_pos closed] at h
    obtain ⟨name, rfl⟩ := List.getLast?_eq_some_iff.1 closed
    rw [List.dropLast_concat] at h
    by_cases named : isName name = true
    · cases (if_pos named).symm.trans h
      exact .label named
    · cases (if_neg named).symm.trans h
  · rw [if_neg closed] at h
    cases h

theorem denotes_of_readOperand {operand : List Char} {s : Statement String}
    (h : readOperand operand = .ok s) : Denotes ('@' :: operand) s := by
  unfold readOperand at h
  split at h
  · split at h
    · cases h
    · next n value =>
      split at h
      · cases h
      · split at h
        · cases h
        · next low =>
          cases h
          obtain ⟨filled, digit, number⟩ := Text.readDecimal?_eq_some value
          have low : n ≤ 32767 := Nat.le_of_not_lt low
          have back : n.toUInt16.toNat = n :=
            UInt16.toNat_ofNat_of_lt (Nat.lt_of_le_of_lt low (by decide))
          refine .load filled digit (number.trans back.symm) ?_
          rw [UInt16.le_iff_toNat_le, back]
          exact low
  · split at h
    · next named =>
      cases h
      exact .reference named
    · cases h

theorem jumpPart_of_readJump {name : List Char} {jump : Jump} (h : readJump name = .ok jump) :
    JumpPart (';' :: name) jump := by
  unfold readJump at h
  split at h
  · cases h
  · next apart named =>
    cases h
    have found := List.find?_some named
    have same : jump.text = String.ofList name := eq_of_beq found
    have part := JumpPart.named apart
    rwa [same, String.toList_ofList] at part
  · cases h

/-- What stands behind a destination is a computation and perhaps a jump. -/
theorem denotes_of_readComputation {front text : List Char} {dest : Dest} {s : Statement String}
    (before : DestPart front dest) (h : readComputation dest text = .ok s) :
    Denotes (front ++ text) s := by
  have spelled {part back : List Char} {comp : Comp} {jump : Jump} (cut : text = part ++ back)
      (behind : JumpPart back jump) (named : Comp.ofText? (String.ofList part) = some comp) :
      Denotes (front ++ text) (.instr (.compute dest comp jump)) := by
    obtain ⟨rows, more, listed, -⟩ := List.lookup_eq_some_iff.1 named
    rw [cut, ← List.append_assoc]
    exact .compute before (listed ▸ by simp) behind
  unfold readComputation at h
  split at h
  · next part name cut =>
    cases read : readJump name with
    | error e =>
      rw [read] at h
      cases h
    | ok jump =>
      rw [read] at h
      dsimp only [Except.map, bind, Except.bind] at h
      split at h
      · next named =>
        cases h
        exact spelled (Text.eq_append_of_splitOnce? cut) (jumpPart_of_readJump read) named
      · cases h
  · dsimp only [pure, Except.pure, bind, Except.bind] at h
    split at h
    · next named =>
      cases h
      exact spelled (List.append_nil text).symm .absent named
    · cases h

/-- A line that reads denotes what was read. -/
theorem denotes_of_read {text : List Char} {s : Statement String} (h : read text = .ok s) :
    Denotes text s := by
  unfold read at h
  split at h
  · exact denotes_of_readLabel h
  · exact denotes_of_readOperand h
  · split at h
    · next letters rest cut =>
      split at h
      · next dest named =>
        have whole := denotes_of_readComputation (.letters named) h
        rw [Text.eq_append_of_splitOnce? cut]
        simpa using whole
      · cases h
    · exact denotes_of_readComputation .absent h

theorem eq_tailText {back : List Char} {jump : Jump} (behind : JumpPart back jump)
    (text : List Char) : text ++ back = tailText (String.ofList text) jump := by
  rw [tailText, String.toList_ofList]
  cases behind with
  | absent => rfl
  | named jumps => rw [if_neg jumps, String.toList_append]; rfl

/-- What a line denotes is read. -/
theorem read_of_denotes {text : List Char} {s : Statement String} (h : Denotes text s) :
    read text = .ok s := by
  cases h with
  | label named => simp [read, readLabel, named]
  | reference named => exact readOperand_name named
  | load filled digit number low => exact readOperand_of_low filled digit number low
  | @compute front text back dest comp jump before spelled behind =>
    have spells : Spells (String.ofList text) comp := spells_of_mem spelled
    rw [List.append_assoc, eq_tailText behind]
    cases before with
    | absent => exact read_bare spells jump
    | letters named => simpa using read_assigned named spells jump

theorem read_eq_ok_iff {text : List Char} {s : Statement String} :
    read text = .ok s ↔ Denotes text s :=
  ⟨denotes_of_read, read_of_denotes⟩

/-! ## Lines that denote nothing -/

theorem readLabel_ne_range (inner : List Char) (value : String) :
    readLabel inner ≠ .error (.range value) := by
  unfold readLabel
  split
  · dsimp only
    split <;> simp
  · simp

theorem readJump_ne_range (name : List Char) (value : String) :
    readJump name ≠ .error (.range value) := by
  unfold readJump
  split <;> simp

theorem readComputation_ne_range (dest : Dest) (text : List Char) (value : String) :
    readComputation dest text ≠ .error (.range value) := by
  unfold readComputation
  intro h
  split at h
  · next part name cut =>
    cases read : readJump name with
    | error e =>
      rw [read] at h
      cases h
      exact readJump_ne_range name value read
    | ok jump =>
      rw [read] at h
      dsimp only [Except.map, bind, Except.bind] at h
      split at h <;> cases h
  · dsimp only [pure, Except.pure, bind, Except.bind] at h
    split at h <;> cases h

theorem tooLarge_of_readOperand {operand : List Char} {value : String}
    (h : readOperand operand = .error (.range value)) :
    TooLarge operand ∧ value = String.ofList operand := by
  unfold readOperand at h
  split at h
  · split at h
    · cases h
    · next n number =>
      split at h
      · cases h
      · next bound =>
        split at h
        · next high =>
          cases h
          obtain ⟨filled, digit, rfl⟩ := Text.readDecimal?_eq_some number
          exact ⟨⟨filled, digit, high, Nat.lt_of_not_le bound⟩, rfl⟩
        · cases h
  · split at h <;> cases h

/-- A line is refused for its number when that is too large, and for nothing else. -/
theorem read_eq_range_iff {text : List Char} {value : String} :
    read text = .error (.range value) ↔
      ∃ digits, TooLarge digits ∧ text = '@' :: digits ∧ value = String.ofList digits := by
  constructor
  · intro h
    unfold read at h
    split at h
    · exact absurd h (readLabel_ne_range _ value)
    · next operand =>
      obtain ⟨large, rfl⟩ := tooLarge_of_readOperand h
      exact ⟨operand, large, rfl, rfl⟩
    · split at h
      · split at h
        · exact absurd h (readComputation_ne_range _ _ value)
        · cases h
      · exact absurd h (readComputation_ne_range _ _ value)
  · rintro ⟨digits, large, rfl, rfl⟩
    refine (readOperand_digits large.filled large.digit).trans ?_
    rw [if_neg (Nat.not_le.2 large.bound), if_pos large.high]

end Statement

/-- A statement that a line denotes has a written form of its own. -/
theorem Denotes.proper {text : List Char} {s : Statement String} (h : Denotes text s) :
    s.Proper := by
  cases h with
  | label named => simpa [Statement.Proper] using named
  | reference named => simpa [Statement.Proper] using named
  | load _ _ _ low => exact low
  | @compute _ text _ _ comp _ _ spelled _ =>
    have all : ∀ row ∈ Comp.table ++ Comp.exchanged, row.2.isNamed = true := by decide
    exact all _ spelled

theorem exists_eq_ok {ε α : Type} {x : Except ε α} (h : x.toOption.isSome = true) :
    ∃ a, x = .ok a := by
  cases x with
  | ok a => exact ⟨a, rfl⟩
  | error e => cases h

/-- A walk over a list that may fail answers element by element. -/
theorem mapM_eq_ok_iff {ε α β : Type} {f : α → Except ε β} {l : List α} {r : List β} :
    l.mapM f = .ok r ↔ List.Forall₂ (fun a b => f a = .ok b) l r := by
  induction l generalizing r with
  | nil => cases r <;> simp [pure, Except.pure]
  | cons a l ih =>
    rw [List.mapM_cons]
    cases first : f a with
    | error e => cases r <;> simp [first, bind, Except.bind]
    | ok b =>
      cases rest : l.mapM f with
      | error e => cases r <;> simp [first, rest, ← ih, bind, Except.bind]
      | ok bs => cases r <;> simp [first, rest, ← ih, bind, Except.bind, pure, Except.pure]

/-- A walk fails at the first element that does. -/
theorem mapM_eq_error_iff {ε α β : Type} {f : α → Except ε β} {l : List α} {e : ε} :
    l.mapM f = .error e ↔ ∃ front a rest, l = front ++ a :: rest ∧
      (∀ x ∈ front, ∃ b, f x = .ok b) ∧ f a = .error e := by
  induction l with
  | nil => simp [pure, Except.pure]
  | cons a l ih =>
    rw [List.mapM_cons]
    cases first : f a with
    | error e' =>
      simp only [bind, Except.bind, Except.error.injEq]
      constructor
      · rintro rfl
        exact ⟨[], a, l, rfl, List.forall_mem_nil _, first⟩
      · rintro ⟨_ | ⟨x, front⟩, y, rest, cut, passed, failed⟩
        · cases cut
          exact Except.error.inj (first.symm.trans failed)
        · cases cut
          obtain ⟨b, there⟩ := passed a List.mem_cons_self
          cases first.symm.trans there
    | ok b =>
      have later : (do let bs ← l.mapM f; pure (b :: bs)) = Except.error e ↔ l.mapM f = .error e := by
        cases l.mapM f <;> simp [bind, Except.bind, pure, Except.pure]
      refine later.trans (ih.trans ?_)
      constructor
      · rintro ⟨front, y, rest, rfl, passed, failed⟩
        exact ⟨a :: front, y, rest, rfl, List.forall_mem_cons.2 ⟨⟨b, first⟩, passed⟩, failed⟩
      · rintro ⟨_ | ⟨x, front⟩, y, rest, cut, passed, failed⟩
        · cases cut
          cases first.symm.trans failed
        · cases cut
          exact ⟨front, y, rest, rfl, (List.forall_mem_cons.1 passed).2, failed⟩

/-- A numbered line denotes a statement with the number of the line. -/
structure DenotesAt (l : Nat × List Char) (x : Located) : Prop where
  line : x.line = l.1
  statement : Denotes l.2 x.statement

theorem readLine_eq_ok_iff {l : Nat × List Char} {x : Located} :
    readLine l = .ok x ↔ DenotesAt l x := by
  obtain ⟨line, s⟩ := x
  unfold readLine
  constructor
  · intro h
    split at h
    · next read =>
      cases h
      exact ⟨rfl, Statement.read_eq_ok_iff.1 read⟩
    · cases h
  · rintro ⟨rfl, denotes⟩
    rw [Statement.read_eq_ok_iff.2 denotes]

/-- The statements of a source text are those that its lines denote, in order. -/
theorem readSource_eq_ok_iff {source : String} {located : List Located} :
    readSource source = .ok located ↔
      List.Forall₂ DenotesAt (codeLines source.toList) located := by
  rw [readSource, mapM_eq_ok_iff]
  exact ⟨fun h => h.imp fun _ _ => readLine_eq_ok_iff.1, fun h => h.imp fun _ _ => readLine_eq_ok_iff.2⟩

theorem denotes_of_readSource {source : String} {located : List Located}
    (h : readSource source = .ok located) :
    List.Forall₂ Denotes ((codeLines source.toList).map Prod.snd)
      (located.map Located.statement) := by
  rw [List.forall₂_map_left_iff, List.forall₂_map_right_iff]
  exact (readSource_eq_ok_iff.1 h).imp fun _ _ => DenotesAt.statement

theorem proper_of_forall₂ {lines : List (List Char)} {code : List (Statement String)}
    (h : List.Forall₂ Denotes lines code) : ∀ s ∈ code, s.Proper := by
  induction h with
  | nil => exact List.forall_mem_nil _
  | cons first _ ih => exact List.forall_mem_cons.2 ⟨first.proper, ih⟩

/-- The statements of a source text have written forms of their own. -/
theorem proper_of_readSource {source : String} {located : List Located}
    (h : readSource source = .ok located) : ∀ s ∈ located.map Located.statement, s.Proper :=
  proper_of_forall₂ (denotes_of_readSource h)

end HackPlatform.Asm
