import HackPlatform.Proofs.Machine.Trap
import HackPlatform.Proofs.Vm.Blocks
import HackPlatform.Proofs.Vm.Image

/-!
# Comparisons of signed words

A comparison goes by the sign of a difference of 16 bits. That is the order of the operands as
signed numbers as long as their difference is a signed word too; where it is not, the difference has
the other sign, and a comparison answers for the converse relation. Equality has no such limit.
-/

namespace HackPlatform

/-- A word read as a signed number. -/
def signed (w : UInt16) : Int :=
  w.toInt16.toInt

theorem signed_bounds (w : UInt16) : -32768 ≤ signed w ∧ signed w ≤ 32767 := by
  have low := w.toInt16.le_toInt
  have high := w.toInt16.toInt_lt
  unfold signed
  omega

theorem signed_injective {x y : UInt16} (h : signed x = signed y) : x = y := by
  have same : x.toInt16 = y.toInt16 := Int16.toInt_inj.1 h
  exact congrArg Int16.toUInt16 same

theorem signed_sub (x y : UInt16) : signed (x - y) = (signed x - signed y).bmod 65536 := by
  rw [signed, UInt16.toInt16_sub, Int16.toInt_sub]
  rfl

namespace Vm

/-- The difference of two words, as signed numbers, is a signed word. -/
def Near (x y : UInt16) : Prop :=
  -32768 ≤ signed x - signed y ∧ signed x - signed y ≤ 32767

instance (x y : UInt16) : Decidable (Near x y) :=
  inferInstanceAs (Decidable (_ ∧ _))

theorem signed_sub_of_near {x y : UInt16} (h : Near x y) :
    signed (x - y) = signed x - signed y := by
  obtain ⟨low, high⟩ := h
  rw [signed_sub]
  apply Int.bmod_eq_of_le <;> omega

/-- A difference that is no signed word is off by 65536. -/
theorem signed_sub_of_far {x y : UInt16} (h : ¬Near x y) :
    (32767 < signed x - signed y ∧ signed (x - y) = signed x - signed y - 65536) ∨
      (signed x - signed y < -32768 ∧ signed (x - y) = signed x - signed y + 65536) := by
  have boundsX := signed_bounds x
  have boundsY := signed_bounds y
  rw [signed_sub, Int.bmod_def]
  unfold Near at h
  split <;> omega

namespace Relation

/-- Whether a relation holds of two words as signed numbers. -/
def ofSigned (x y : UInt16) : Relation → Bool
  | eq => signed x = signed y
  | gt => signed x > signed y
  | lt => signed x < signed y

/-- The relation of the operands in the other order. -/
def converse : Relation → Relation
  | eq => eq
  | gt => lt
  | lt => gt

/-- What the block of a comparison says of its operands. -/
def answer (r : Relation) (x y : UInt16) : Bool :=
  if Near x y then r.ofSigned x y else r.converse.ofSigned x y

theorem holds_eq_iff (w : UInt16) : eq.holds w = true ↔ signed w = 0 := by
  rw [holds, decide_eq_true_iff]
  constructor
  · rintro rfl
    rfl
  · intro h
    exact signed_injective (h.trans (by rfl))

theorem holds_gt_iff (w : UInt16) : gt.holds w = true ↔ 0 < signed w := by
  rw [holds, decide_eq_true_iff, Int16.lt_iff_toInt_lt, Int16.toInt_zero]
  rfl

theorem holds_lt_iff (w : UInt16) : lt.holds w = true ↔ signed w < 0 := by
  rw [holds, decide_eq_true_iff, Int16.lt_iff_toInt_lt, Int16.toInt_zero]
  rfl

/-- The sign of a difference, by the numbers it is the difference of. -/
theorem holds_sub (r : Relation) (x y : UInt16) : r.holds (x - y) = r.answer x y := by
  have boundsX := signed_bounds x
  have boundsY := signed_bounds y
  have boundsDifference := signed_bounds (x - y)
  rw [Bool.eq_iff_iff, answer]
  by_cases near : Near x y
  · have exact := signed_sub_of_near near
    rw [if_pos near]
    cases r with
    | eq =>
      rw [holds_eq_iff, ofSigned, decide_eq_true_iff]
      omega
    | gt =>
      rw [holds_gt_iff, ofSigned, decide_eq_true_iff]
      omega
    | lt =>
      rw [holds_lt_iff, ofSigned, decide_eq_true_iff]
      omega
  · have wrapped := signed_sub_of_far near
    rw [if_neg near]
    cases r with
    | eq =>
      rw [holds_eq_iff, converse, ofSigned, decide_eq_true_iff]
      omega
    | gt =>
      rw [holds_gt_iff, converse, ofSigned, decide_eq_true_iff]
      omega
    | lt =>
      rw [holds_lt_iff, converse, ofSigned, decide_eq_true_iff]
      omega

end Relation

/-! ## Blocks -/

/-- The two topmost words are replaced by the word for whether they are related, and nothing else
changes. -/
structure Answered (ram : Ram) (related : Bool) (ram' : Ram) : Prop where
  result : ram'.peek (ram.get .sp - 2) = if related then 0xFFFF else 0
  sp : ram'.get .sp = ram.get .sp - 1
  rest : ∀ addr : UInt16, addr ≠ 0 → addr ≠ ram.get .sp - 2 → ram'.peek addr = ram.peek addr

/-- From `start` the machine comes to `back` with two words compared, wherever they lie on the stack
and whatever they are. -/
def Decides (rom : Rom) (start back : UInt16) (related : UInt16 → UInt16 → Bool) : Prop :=
  ∀ a d (ram : Ram), ram.Full → 18 ≤ ram.get .sp → ram.get .sp ≤ 32768 →
    ∃ n ram', Machine.Lands rom ⟨start, a, d, ram⟩ n back ram' ∧
      Answered ram (related (ram.peek (ram.get .sp - 2)) (ram.peek (ram.get .sp - 1))) ram'

/-- The two topmost cells, when they lie above the first 16 words and in memory. -/
theorem below_top {sp i : UInt16} (low : 18 ≤ sp) (high : sp ≤ 32768) (positive : 1 ≤ i)
    (small : i ≤ 2) : 16 ≤ sp - i ∧ sp - i < 32768 := by
  have low : 18 ≤ sp.toNat := low
  have high : sp.toNat ≤ 32768 := high
  have positive : 1 ≤ i.toNat := positive
  have small : i.toNat ≤ 2 := small
  have place : (sp - i).toNat = sp.toNat - i.toNat :=
    UInt16.toNat_sub_of_le _ _ (UInt16.le_iff_toNat_le.2 (by omega))
  rw [Ram.above_iff, Ram.below_iff, place]
  omega

/-- The memory behind a comparison. -/
theorem answered_drop_poke {ram : Ram} (full : ram.Full) (low : 18 ≤ ram.get .sp)
    (high : ram.get .sp ≤ 32768) (related : Bool) :
    Answered ram related (ram.drop.poke (ram.get .sp - 2) (Code.truth related)) := by
  have place := below_top low high (i := 2) (by decide) (by decide)
  constructor
  case result =>
    exact (Ram.full_drop.2 full).peek_poke place.2
  case sp =>
    rw [Ram.get_poke place.1]
    exact full.get_sp_drop
  case rest =>
    intro addr pointer other
    rw [Ram.peek_poke_of_ne _ _ other]
    exact Ram.peek_poke_of_ne _ _ pointer

namespace Image

variable {sites : List Site} {p : Asm.Program} (image : Image sites p)

include image

theorem compare_decides {k : Nat} {r : Relation}
    (compare : TaskAt sites k (.command (.operate (.compare r)))) :
    Decides ⟨p.words⟩ (startOf sites k) (startOf sites (k + 1)) r.answer := by
  obtain ⟨scope, stands, back⟩ := image.stands_command compare
  intro a d ram full low high
  have top := below_top low high (i := 1) (by decide) (by decide)
  have below := below_top low high (i := 2) (by decide) (by decide)
  obtain ⟨n, lands⟩ := Code.compare_lands image.registers full stands top.2 below.2
    (m := ⟨startOf sites k, a, d, ram⟩)
  have first : ram.drop.peek (ram.get .sp - 2) = ram.peek (ram.get .sp - 2) := Ram.peek_set below.1
  have second : ram.drop.peek (ram.get .sp - 1) = ram.peek (ram.get .sp - 1) := Ram.peek_set top.1
  rw [first, second, Code.truth_taken, r.holds_sub] at lands
  rw [back]
  exact ⟨n + 1, _, lands, answered_drop_poke full low high _⟩

end Image

/-- In a program that was translated and assembled, a comparison decides its relation of signed
words where their difference is a signed word, and the converse relation where it is not. -/
theorem comparison_decides {units : List (String × String)} {bootstrap : Bool} {config : Config}
    {text : String} {p : Asm.Program} (translated : translateSources units bootstrap config = .ok text)
    (assembled : Asm.assemble text = .ok p) {k : Nat} {r : Relation}
    (compare : TaskAt (outline units bootstrap config) k (.command (.operate (.compare r)))) :
    Decides ⟨p.words⟩ (startOf (outline units bootstrap config) k)
      (startOf (outline units bootstrap config) (k + 1)) fun x y =>
        if Near x y then r.ofSigned x y else r.converse.ofSigned x y :=
  (image_of_translation translated assembled).compare_decides compare

/-- A program that asks whether 32767 is greater than -1. -/
def farApart : List (String × String) :=
  [("Main", "push constant 32767\npush constant 1\nneg\ngt")]

/-- Its settings. -/
def plain : Config := ⟨.auto, "Sys.init", 256, false⟩

theorem farApart_compare :
    TaskAt (outline farApart false plain) 3 (.command (.operate (.compare .gt))) :=
  Option.map_eq_some_iff.1
    (by decide +kernel : (outline farApart false plain)[3]?.map Site.task = some _)

theorem exists_farApart :
    ∃ text p, translateSources farApart false plain = .ok text ∧ Asm.assemble text = .ok p :=
  exists_program (by decide +kernel) (by decide +kernel)

/-- The stack in front of its comparison. -/
def farStack : Ram :=
  (((Ram.zeros Ram.fullSize).set .sp 258).poke 256 32767).poke 257 0xFFFF

theorem farStack_holds : farStack.Full ∧ farStack.get .sp = 258 ∧ farStack.peek 256 = 32767 ∧
    farStack.peek 257 = 0xFFFF := by
  have full : (Ram.zeros Ram.fullSize).Full := Ram.size_zeros _
  have pointer : (((Ram.zeros Ram.fullSize).set .sp 258).poke 256 32767).Full :=
    Ram.full_poke.2 (Ram.full_set.2 full)
  refine ⟨Ram.full_poke.2 pointer, ?_, ?_, pointer.peek_poke (by decide)⟩
  · rw [farStack, Ram.get_poke (by decide), Ram.get_poke (by decide)]
    exact full.get_set
  · rw [farStack, Ram.peek_poke_of_ne _ _ (by decide)]
    exact (Ram.full_set.2 full).peek_poke (by decide)

/-- From that stack the program decides by what it says of its two words. -/
theorem Decides.farStack {rom : Rom} {start back : UInt16} {related : UInt16 → UInt16 → Bool}
    (h : Decides rom start back related) :
    ∃ n ram, Machine.Lands rom ⟨start, 0, 0, farStack⟩ n back ram ∧
      ram.peek 256 = (if related 32767 0xFFFF then 0xFFFF else 0) ∧ ram.get .sp = 257 := by
  obtain ⟨full, sp, below, top⟩ := farStack_holds
  obtain ⟨n, ram, lands, answered⟩ := h 0 0 Vm.farStack full (by rw [sp]; decide)
    (by rw [sp]; decide)
  have result := answered.result
  have pointer := answered.sp
  rw [sp] at result pointer
  rw [show (258 : UInt16) - 2 = 256 from rfl, show (258 : UInt16) - 1 = 257 from rfl, below,
    top] at result
  exact ⟨n, ram, lands, result, pointer⟩

/-- The difference, 32768, is no signed word, so the program says no. -/
theorem comparison_decides_far :
    ∃ text p, translateSources farApart false plain = .ok text ∧ Asm.assemble text = .ok p ∧
      ∃ n ram, Machine.Lands ⟨p.words⟩ ⟨startOf (outline farApart false plain) 3, 0, 0, farStack⟩ n
          (startOf (outline farApart false plain) 4) ram ∧
        ram.peek 256 = 0 ∧ ram.get .sp = 257 := by
  obtain ⟨text, p, translated, assembled⟩ := exists_farApart
  have decides := comparison_decides translated assembled farApart_compare
  obtain ⟨n, ram, lands, result, pointer⟩ := decides.farStack
  exact ⟨text, p, translated, assembled, n, ram, lands, result, pointer⟩

/-- Not every comparison decides its relation of signed words: the end of the program is reached in
one way only, and there 32767 is not found to be greater than -1. -/
theorem not_decides_signed :
    ¬∀ (units : List (String × String)) (bootstrap : Bool) (config : Config) (text : String)
      (p : Asm.Program), translateSources units bootstrap config = .ok text →
      Asm.assemble text = .ok p → ∀ (k : Nat) (r : Relation),
      TaskAt (outline units bootstrap config) k (.command (.operate (.compare r))) →
      Decides ⟨p.words⟩ (startOf (outline units bootstrap config) k)
        (startOf (outline units bootstrap config) (k + 1)) fun x y => r.ofSigned x y := by
  intro claimed
  obtain ⟨text, p, translated, assembled⟩ := exists_farApart
  have image := image_of_translation translated assembled
  obtain ⟨n, ram, lands, result, -⟩ := (image.compare_decides farApart_compare).farStack
  obtain ⟨n', ram', lands', result', -⟩ :=
    (claimed farApart false plain text p translated assembled 3 .gt farApart_compare).farStack
  have outside : Rom.size ⟨p.words⟩ ≤ (startOf (outline farApart false plain) 4).toNat := by
    have all : (outline farApart false plain).take 4 = outline farApart false plain := by
      decide +kernel
    have size : Rom.size ⟨p.words⟩ = Asm.wordCount (codeOf (outline farApart false plain)) := by
      rw [Rom.size, image.assembled.size_words, Asm.wordCount_map]
    rw [image.toNat_startOf, all]
    exact Nat.le_of_eq size
  rw [Machine.Lands.unique outside lands lands', result'] at result
  exact absurd result (by decide)

end Vm

end HackPlatform
