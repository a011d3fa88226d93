import HackPlatform.Text.Numeral

/-!
# Numerals read back

A number that was written in decimal digits is read back, and so is a word that was written in
binary ones. Different numbers are thus written differently.
-/

namespace HackPlatform.Text

theorem isDigit_of_mem_repr {n : Nat} {c : Char} (h : c ∈ n.repr.toList) : c.isDigit = true := by
  rw [Nat.toList_repr] at h
  exact Nat.isDigit_of_mem_toDigits (by decide) (by decide) h

theorem repr_ne_nil (n : Nat) : n.repr.toList ≠ [] := by
  rw [Nat.toList_repr]
  exact Nat.toDigits_ne_nil

/-- The value of a numeral, and that it is one. -/
theorem readDecimal?_eq_some {s : List Char} {n : Nat} (h : readDecimal? s = some n) :
    s ≠ [] ∧ (∀ c ∈ s, c.isDigit = true) ∧ Nat.ofDigitChars 10 s 0 = n := by
  unfold readDecimal? at h
  split at h
  · cases h
  · next digits =>
    cases h
    simp only [Bool.or_eq_true, List.isEmpty_iff, Bool.not_eq_true', not_or, Bool.not_eq_false,
      List.all_eq_true] at digits
    exact ⟨digits.1, digits.2, rfl⟩

/-- Digits have a value. -/
theorem readDecimal?_of_digits {s : List Char} (filled : s ≠ [])
    (digits : ∀ c ∈ s, c.isDigit = true) : readDecimal? s = some (Nat.ofDigitChars 10 s 0) := by
  rw [readDecimal?, List.isEmpty_eq_false_iff.2 filled, List.all_eq_true.2 digits]
  rfl

theorem readDecimal?_repr (n : Nat) : readDecimal? n.repr.toList = some n := by
  rw [readDecimal?_of_digits (repr_ne_nil n) fun _ => isDigit_of_mem_repr, Nat.toList_repr,
    Nat.ofDigitChars_ten_toDigits]

theorem repr_injective {m n : Nat} (h : m.repr.toList = n.repr.toList) : m = n := by
  have read := readDecimal?_repr m
  rw [h, readDecimal?_repr] at read
  exact (Option.some.inj read).symm

theorem isDigit_of_mem_decimal {w : UInt16} {c : Char} (h : c ∈ (decimal w).toList) :
    c.isDigit = true :=
  isDigit_of_mem_repr h

theorem decimal_ne_nil (w : UInt16) : (decimal w).toList ≠ [] :=
  repr_ne_nil w.toNat

/-- A word has at most five digits. -/
theorem length_decimal_le (w : UInt16) : (decimal w).length ≤ 5 := by
  rw [decimal, ← String.length_toList, Nat.toList_repr]
  refine (Nat.length_toDigits_le_iff (by decide) (by decide)).2 ?_
  exact Nat.lt_trans w.toNat_lt (by decide)

theorem readWord?_decimal (w : UInt16) : readWord? (decimal w).toList = some w := by
  have read : readDecimal? (decimal w).toList = some w.toNat := readDecimal?_repr w.toNat
  have whole : w.toNat.toUInt16 = w := UInt16.ofNat_toNat
  simp only [readWord?, read, if_pos w.toNat_lt, whole]

/-- Digits are a numeral of a word: it is their value. -/
structure Numeral (s : List Char) (w : UInt16) : Prop where
  filled : s ≠ []
  digits : ∀ c ∈ s, c.isDigit = true
  value : Nat.ofDigitChars 10 s 0 = w.toNat

theorem Numeral.unique {s : List Char} {v w : UInt16} (h : Numeral s v) (h' : Numeral s w) : v = w :=
  UInt16.toNat_inj.1 (h.value.symm.trans h'.value)

theorem readWord?_eq_some_iff {s : List Char} {w : UInt16} :
    readWord? s = some w ↔ Numeral s w := by
  constructor
  · intro h
    unfold readWord? at h
    split at h
    · next n read =>
      obtain ⟨filled, digits, value⟩ := readDecimal?_eq_some read
      split at h
      · next small =>
        cases h
        exact ⟨filled, digits, value.trans (Nat.mod_eq_of_lt small).symm⟩
      · cases h
    · cases h
  · rintro ⟨filled, digits, value⟩
    have read : readDecimal? s = some w.toNat := value ▸ readDecimal?_of_digits filled digits
    simp only [readWord?, read, if_pos w.toNat_lt, Nat.toUInt16, UInt16.ofNat_toNat]

/-- A numeral without its leading zeros. The last digit stays. -/
def withoutZeros (s : List Char) : List Char :=
  if s.dropWhile (· == '0') = [] then ['0'] else s.dropWhile (· == '0')

/-- The value of a digit is small, and the digit is written for it. -/
theorem digit_value {c : Char} (h : c.isDigit = true) :
    c.toNat - '0'.toNat < 10 ∧ Nat.toDigits 10 (c.toNat - '0'.toNat) = [c] := by
  obtain ⟨low, high⟩ : 48 ≤ c.toNat ∧ c.toNat ≤ 57 := Char.isDigit_iff_toNat.1 h
  have written : ∀ d < 10, Nat.digitChar d = Char.ofNat (48 + d) := by decide
  have small : c.toNat - 48 < 10 := by omega
  refine ⟨small, (Nat.toDigits_of_lt_base small).trans ?_⟩
  rw [written _ small, Nat.add_sub_cancel' low, Char.ofNat_toNat]

theorem ofDigitChars_dropWhile (s : List Char) :
    Nat.ofDigitChars 10 (s.dropWhile (· == '0')) 0 = Nat.ofDigitChars 10 s 0 := by
  induction s with
  | nil => rfl
  | cons c s ih =>
    by_cases zero : c = '0'
    · subst zero
      exact ih
    · rw [List.dropWhile_cons_of_neg (by simpa using zero)]

/-- Digits that are read onto a number other than zero are written behind it. -/
theorem toDigits_ofDigitChars {s : List Char} (digits : ∀ c ∈ s, c.isDigit = true) {n : Nat}
    (positive : 0 < n) :
    Nat.toDigits 10 (Nat.ofDigitChars 10 s n) = Nat.toDigits 10 n ++ s := by
  induction s generalizing n with
  | nil => exact (List.append_nil _).symm
  | cons c s ih =>
    rw [List.forall_mem_cons] at digits
    obtain ⟨small, written⟩ := digit_value digits.1
    rw [Nat.ofDigitChars_cons, ih digits.2 (by omega),
      ← Nat.toDigits_append_toDigits (by decide) positive small, written, List.append_assoc]
    rfl

/-- The numeral that is written is the one without leading zeros. -/
theorem Numeral.toList_decimal {s : List Char} {w : UInt16} (h : Numeral s w) :
    (decimal w).toList = withoutZeros s := by
  rw [decimal, Nat.toList_repr, ← h.value, ← ofDigitChars_dropWhile, withoutZeros]
  split
  · next none =>
    rw [none]
    rfl
  · next some =>
    obtain ⟨c, rest, cut⟩ := List.exists_cons_of_ne_nil some
    have digits : ∀ x ∈ c :: rest, x.isDigit = true := by
      intro x mem
      rw [← cut] at mem
      exact h.digits x ((List.dropWhile_sublist _).subset mem)
    rw [List.forall_mem_cons] at digits
    have positive : 0 < c.toNat - '0'.toNat := by
      have stop := List.head?_dropWhile_not (· == '0') s
      rw [cut] at stop
      refine Nat.pos_of_ne_zero fun zero => beq_eq_false_iff_ne.1 stop ?_
      have written := (digit_value digits.1).2
      rw [zero] at written
      exact (List.singleton_inj.1 written).symm
    rw [cut, Nat.ofDigitChars_cons, Nat.mul_zero, Nat.zero_add,
      toDigits_ofDigitChars digits.2 positive, (digit_value digits.1).2, List.singleton_append]

/-! ## Binary digits -/

/-- A text is sixteen binary digits. -/
structure WordDigits (s : List Char) : Prop where
  length : s.length = 16
  digits : ∀ c ∈ s, c = '0' ∨ c = '1'

theorem wordDigits_binaryDigits (w : UInt16) : WordDigits (binaryDigits w) := by
  refine ⟨by rw [binaryDigits, List.length_map, List.length_range], fun c mem => ?_⟩
  obtain ⟨i, -, rfl⟩ := List.mem_map.1 mem
  split
  · exact .inr rfl
  · exact .inl rfl

/-- What a text of binary digits denotes, however long it is. -/
def binaryValue (s : List Char) : Nat :=
  s.foldl (fun n c => 2 * n + if c == '1' then 1 else 0) 0

/-- The digits are the bits, the last one the lowest. -/
theorem testBit_binaryValue_reverse (s : List Char) (i : Nat) :
    (binaryValue s.reverse).testBit i = (s[i]? == some '1') := by
  induction s generalizing i with
  | nil => simp [binaryValue]
  | cons c s ih =>
    have value : binaryValue (c :: s).reverse =
        2 * binaryValue s.reverse + if c == '1' then 1 else 0 := by
      simp [binaryValue]
    cases i with
    | zero =>
      rw [value, Nat.testBit_zero, List.getElem?_cons_zero, Option.some_beq_some]
      cases c == '1' <;> simp
    | succ i =>
      have half : binaryValue (c :: s).reverse / 2 = binaryValue s.reverse := by
        rw [value]
        split <;> omega
      rw [Nat.testBit_succ, half, ih, List.getElem?_cons_succ]

/-- The digit for each bit of a word, counted from the front. -/
theorem getElem?_binaryDigits (w : UInt16) {i : Nat} (h : i < 16) :
    (binaryDigits w)[i]? = some (if w.toNat.testBit (15 - i) then '1' else '0') := by
  rw [binaryDigits, List.getElem?_map, List.getElem?_range h]
  rfl

theorem binaryDigits_injective {v w : UInt16} (h : binaryDigits v = binaryDigits w) : v = w := by
  refine UInt16.toNat_inj.1 (Nat.eq_of_testBit_eq fun i => ?_)
  by_cases low : i < 16
  · have front : 15 - i < 16 := by omega
    have same := getElem?_binaryDigits v front
    rw [h, getElem?_binaryDigits w front, Nat.sub_sub_self (by omega)] at same
    cases first : v.toNat.testBit i <;> cases second : w.toNat.testBit i <;> simp_all
  · have high (u : UInt16) : u.toNat.testBit i = false :=
      Nat.testBit_lt_two_pow (Nat.lt_of_lt_of_le u.toNat_lt (Nat.pow_le_pow_right (by decide) (by omega)))
    rw [high, high]

/-- Sixteen digits are those of the word that they denote. -/
theorem WordDigits.binaryDigits_value {s : List Char} (h : WordDigits s) :
    binaryDigits (binaryValue s).toUInt16 = s := by
  refine List.ext_getElem? fun i => ?_
  by_cases inside : i < 16
  · have back : 15 - i < s.reverse.length := by
      rw [List.length_reverse, h.length]
      omega
    have bit : (binaryValue s).toUInt16.toNat.testBit (15 - i) = (s[i]? == some '1') := by
      rw [Nat.toUInt16, UInt16.toNat_ofNat', Nat.testBit_mod_two_pow, decide_eq_true (by omega),
        Bool.true_and, ← List.reverse_reverse s, testBit_binaryValue_reverse,
        List.getElem?_reverse (by simpa using back), List.reverse_reverse, h.length]
      congr 2
      omega
    obtain ⟨c, here⟩ : ∃ c, s[i]? = some c := ⟨_, List.getElem?_eq_getElem (h.length ▸ inside)⟩
    rw [getElem?_binaryDigits _ inside, bit, here]
    obtain rfl | rfl := h.digits c (List.mem_of_getElem? here) <;> rfl
  · rw [List.getElem?_eq_none, List.getElem?_eq_none]
    · rw [h.length]
      omega
    · rw [(wordDigits_binaryDigits _).length]
      omega

theorem readBinary?_of_wordDigits {s : List Char} (h : WordDigits s) :
    readBinary? s = some (binaryValue s).toUInt16 := by
  have all : s.all (fun c => c == '0' || c == '1') = true :=
    List.all_eq_true.2 fun c mem => by simpa using h.digits c mem
  rw [readBinary?, h.length, all]
  rfl

/-- A word is read from its digits and from no other text. -/
theorem readBinary?_eq_some_iff {s : List Char} {w : UInt16} :
    readBinary? s = some w ↔ binaryDigits w = s := by
  constructor
  · intro read
    have binary : WordDigits s := by
      unfold readBinary? at read
      split at read
      · next digits =>
        simp only [Bool.and_eq_true, beq_iff_eq, List.all_eq_true, Bool.or_eq_true] at digits
        exact ⟨digits.1, digits.2⟩
      · cases read
    rw [readBinary?_of_wordDigits binary] at read
    rw [← Option.some.inj read, binary.binaryDigits_value]
  · rintro rfl
    have binary := wordDigits_binaryDigits w
    rw [readBinary?_of_wordDigits binary, binaryDigits_injective binary.binaryDigits_value]

/-- Every sixteen digits are those of some word. -/
theorem exists_binaryDigits_eq_iff {s : List Char} : (∃ w, binaryDigits w = s) ↔ WordDigits s := by
  constructor
  · rintro ⟨w, rfl⟩
    exact wordDigits_binaryDigits w
  · exact fun binary => ⟨_, binary.binaryDigits_value⟩

end HackPlatform.Text
