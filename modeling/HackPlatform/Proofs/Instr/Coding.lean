import HackPlatform.Instr.Encoding

/-!
# Encoding and decoding

An instruction whose value has fifteen bits, or whose computation has a name, is read back from its
word. The four fields of a computation do not overlap, so each is found where it was put; and they
leave no bit over, so a word that is an instruction is the word of that instruction.
-/

namespace HackPlatform

/-- The instruction has a word of its own. -/
def Instr.Encodable : Instr → Prop
  | .address value => value ≤ maxAddress
  | .compute _ comp _ => comp.isNamed = true

/-- Bits are selected from each part of a word. -/
theorem or_and_right (a b c : UInt16) : (a ||| b) &&& c = a &&& c ||| b &&& c :=
  UInt16.toBitVec_inj.1 BitVec.and_or_distrib_right

theorem and_or_left (a b c : UInt16) : a &&& (b ||| c) = a &&& b ||| a &&& c :=
  UInt16.toBitVec_inj.1 BitVec.and_or_distrib_left

/-- A field that is shifted down and back is where it was. -/
theorem shiftRight_and_shiftLeft (w m k : UInt16) :
    (w >>> k &&& m) <<< k = w &&& (m <<< k) := by
  rw [← UInt16.toBitVec_inj]
  simp only [UInt16.toBitVec_and, UInt16.toBitVec_shiftLeft, UInt16.toBitVec_shiftRight,
    BitVec.shiftLeft_eq', BitVec.ushiftRight_eq']
  generalize (k.toBitVec % 16).toNat = n
  ext i inside
  by_cases below : i < n
  · simp [below]
  · simp [below, Nat.add_sub_cancel' (Nat.le_of_not_lt below), BitVec.getLsbD_eq_getElem inside]

/-- What holds of the eight codes holds of the low three bits of a word. -/
theorem and_seven_cases {P : UInt16 → Prop} (all : ∀ v : Fin 8, P (.ofNat v)) (w : UInt16) :
    P (w &&& 7) := by
  have low : (w &&& 7).toNat < 8 := Nat.lt_succ_of_le Nat.and_le_right
  have here := all ⟨_, low⟩
  rwa [UInt16.ofNat_toNat] at here

/-- Bits that were set are there. -/
theorem or_and_self (a b : UInt16) : (a ||| b) &&& a = a := by
  rw [← UInt16.toBitVec_inj]
  ext i
  simp only [UInt16.toBitVec_and, UInt16.toBitVec_or, BitVec.getElem_and, BitVec.getElem_or]
  cases a.toBitVec[i] <;> simp

/-- The control lines fill their field and leave the others clear. -/
structure Comp.Fits (c : Comp) : Prop where
  field : (((c.bits &&& 0x7F).toUInt16 <<< 6 >>> 6) &&& 0x7F).toUInt8 = c.bits
  dest : ((c.bits &&& 0x7F).toUInt16 <<< 6 >>> 3) &&& 7 = 0
  jump : ((c.bits &&& 0x7F).toUInt16 <<< 6) &&& 7 = 0

theorem Comp.fits_of_isNamed {c : Comp} (h : c.isNamed = true) : c.Fits := by
  obtain ⟨row, mem, same⟩ := List.any_eq_true.1 h
  have same : row.2 = c := of_decide_eq_true same
  subst same
  have all : ∀ row ∈ table,
      (((row.2.bits &&& 0x7F).toUInt16 <<< 6 >>> 6) &&& 0x7F).toUInt8 = row.2.bits ∧
        ((row.2.bits &&& 0x7F).toUInt16 <<< 6 >>> 3) &&& 7 = 0 ∧
        ((row.2.bits &&& 0x7F).toUInt16 <<< 6) &&& 7 = 0 := by
    decide
  obtain ⟨field, dest, jump⟩ := all row mem
  exact ⟨field, dest, jump⟩

/-- Seven bits fit the control lines. -/
theorem Comp.toUInt16_field (w : UInt16) :
    ((w &&& 0x7F).toUInt8 &&& 0x7F).toUInt16 = w &&& 0x7F := by
  have low : (w &&& 0x7F).toNat < 256 := Nat.lt_of_le_of_lt Nat.and_le_right (by decide)
  have whole : (w &&& 0x7F : UInt16) % 256 = w &&& 0x7F := by
    rw [← UInt16.toNat_inj, UInt16.toNat_mod]
    exact Nat.mod_eq_of_lt low
  rw [UInt8.toUInt16_and, UInt16.toUInt16_toUInt8, whole, UInt16.and_assoc]
  rfl

namespace Dest

theorem code_shift (dest : Dest) : dest.code <<< 3 >>> 6 = 0 ∧ dest.code <<< 3 >>> 3 = dest.code ∧
    (dest.code <<< 3) &&& 7 = 0 ∧ dest.code &&& 7 = dest.code := by
  obtain ⟨a, d, m⟩ := dest
  cases a <;> cases d <;> cases m <;> decide

/-- Only the low three bits count. -/
theorem ofCode_and (w : UInt16) : ofCode (w &&& 7) = ofCode w := by
  simp only [ofCode, UInt16.and_assoc]
  rfl

theorem code_ofCode (w : UInt16) : (ofCode w).code = w &&& 7 := by
  rw [← ofCode_and]
  exact and_seven_cases (P := fun v => (ofCode v).code = v) (by decide) w

end Dest

namespace Jump

theorem code_shift (jump : Jump) :
    jump.code >>> 6 = 0 ∧ jump.code >>> 3 = 0 ∧ jump.code &&& 7 = jump.code := by
  cases jump <;> decide

theorem ofCode_and (w : UInt16) : ofCode (w &&& 7) = ofCode w := by
  simp only [ofCode, UInt16.and_assoc]
  rfl

theorem code_ofCode (w : UInt16) : (ofCode w).code = w &&& 7 := by
  rw [← ofCode_and]
  exact and_seven_cases (P := fun v => (ofCode v).code = v) (by decide) w

end Jump

namespace Instr

theorem decode?_encode_address {value : UInt16} (h : value ≤ maxAddress) :
    decode? (encode (.address value)) = some (.address value) := by
  have whole : value &&& 0x7FFF = value := by
    rw [← UInt16.toNat_inj, UInt16.toNat_and]
    exact (Nat.and_two_pow_sub_one_eq_mod _ 15).trans (Nat.mod_eq_of_lt (Nat.lt_succ_of_le h))
  have clear : value &&& 0x8000 = 0 := by
    rw [← whole, UInt16.and_assoc]
    exact UInt16.and_zero
  rw [encode, decode?, whole, clear]
  rfl

theorem decode?_encode_compute {dest : Dest} {comp : Comp} {jump : Jump}
    (h : comp.isNamed = true) :
    decode? (encode (.compute dest comp jump)) = some (.compute dest comp jump) := by
  obtain ⟨field, clearDest, clearJump⟩ := Comp.fits_of_isNamed h
  obtain ⟨dest₆, dest₃, dest₀, destIn⟩ := dest.code_shift
  obtain ⟨jump₆, jump₃, jumpIn⟩ := jump.code_shift
  let c := (comp.bits &&& 0x7F).toUInt16 <<< 6
  let w := computePrefix ||| c ||| dest.code <<< 3 ||| jump.code
  have top : w &&& computePrefix = computePrefix := by
    simp only [w, UInt16.or_assoc]
    exact or_and_self _ _
  have sign : w &&& 0x8000 = 0x8000 := by
    have cut := congrArg (· &&& (0x8000 : UInt16)) top
    simp only [UInt16.and_assoc] at cut
    exact cut
  have compIn : ((w >>> 6) &&& 0x7F).toUInt8 = comp.bits := by
    simp only [w, UInt16.shiftRight_or, dest₆, jump₆, UInt16.or_zero, or_and_right]
    exact (congrArg UInt16.toUInt8 UInt16.zero_or).trans field
  have destAt : Dest.ofCode (w >>> 3) = dest := by
    rw [← Dest.ofCode_and]
    simp only [w, UInt16.shiftRight_or, dest₃, jump₃, UInt16.or_zero, or_and_right, destIn, c,
      clearDest]
    exact (congrArg Dest.ofCode UInt16.zero_or).trans dest.ofCode_code
  have jumpAt : Jump.ofCode w = jump := by
    rw [← Jump.ofCode_and]
    simp only [w, or_and_right, dest₀, jumpIn, c, clearJump, UInt16.or_zero]
    exact (congrArg Jump.ofCode UInt16.zero_or).trans jump.ofCode_code
  show decode? w = _
  rw [decode?, sign, top, compIn, destAt, jumpAt]
  exact if_pos h

/-- An instruction with a word of its own is read back from it. -/
theorem decode?_encode {i : Instr} (h : i.Encodable) : decode? i.encode = some i := by
  cases i with
  | address value => exact decode?_encode_address h
  | compute dest comp jump => exact decode?_encode_compute h

/-- A word with a clear top bit is its own value. -/
theorem eq_and_of_top_clear {w : UInt16} (clear : w &&& 0x8000 = 0) : w = w &&& 0x7FFF := by
  have parts : w &&& (0x8000 ||| 0x7FFF) = w := UInt16.and_neg_one
  rw [and_or_left, clear, UInt16.zero_or] at parts
  exact parts.symm

/-- A computation's word is put together from its four fields. -/
theorem eq_or_fields {w : UInt16} (top : w &&& computePrefix = computePrefix) :
    computePrefix ||| (w >>> 6 &&& 0x7F) <<< 6 ||| (w >>> 3 &&& 7) <<< 3 ||| w &&& 7 = w := by
  have parts : w &&& (computePrefix ||| (0x7F : UInt16) <<< 6 ||| (7 : UInt16) <<< 3 ||| 7) = w :=
    UInt16.and_neg_one
  rw [shiftRight_and_shiftLeft, shiftRight_and_shiftLeft]
  rwa [and_or_left, and_or_left, and_or_left, top] at parts

/-- A word that is an instruction is the word of that instruction. -/
theorem encode_of_decode? {w : UInt16} {i : Instr} (h : decode? w = some i) :
    i.Encodable ∧ i.encode = w := by
  unfold decode? at h
  split at h
  · next clear =>
    cases h
    have value := eq_and_of_top_clear (eq_of_beq clear)
    refine ⟨?_, value.symm⟩
    rw [Encodable, UInt16.le_iff_toNat_le, value]
    exact Nat.and_le_right
  · split at h
    · cases h
    · next top =>
      dsimp only at h
      split at h
      · next named =>
        cases h
        refine ⟨named, ?_⟩
        have top : w &&& computePrefix = computePrefix := by simpa using top
        rw [encode, Comp.toUInt16_field, Dest.code_ofCode, Jump.code_ofCode]
        exact eq_or_fields top
      · cases h

/-- Words and instructions correspond where both have each other. -/
theorem decode?_eq_some_iff {w : UInt16} {i : Instr} :
    decode? w = some i ↔ i.Encodable ∧ i.encode = w := by
  constructor
  · exact encode_of_decode?
  · rintro ⟨encodable, rfl⟩
    exact decode?_encode encodable

end Instr

end HackPlatform
