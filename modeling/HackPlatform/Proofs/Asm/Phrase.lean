import HackPlatform.Proofs.Asm.Failure
import HackPlatform.Proofs.Instr.Expression
import HackPlatform.Proofs.Text.Comments
import Mathlib.Data.List.Nodup

/-!
# Lines and their phrases

The grammar of the assembler, said by shapes only: which characters a name may have, which letters
name a destination, how an expression is spelled. A cleaned line is a phrase exactly when it denotes
a statement, so a source text is refused for a line exactly when that line is no phrase and all
before it are. The word of an instruction is found behind as many words as lines before it give.
-/

namespace HackPlatform

namespace Dest

/-- The letters of places that an instruction can store to. -/
def letters : List Char :=
  ['A', 'D', 'M']

/-- The places that letters name. -/
def places (letters : List Char) : Dest :=
  ⟨decide ('A' ∈ letters), decide ('D' ∈ letters), decide ('M' ∈ letters)⟩

theorem add_places {text : List Char} {c : Char} {dest : Dest} :
    ofLetters?.add (places text) c = some dest ↔
      c ∈ letters ∧ c ∉ text ∧ dest = places (text ++ [c]) := by
  by_cases named : c ∈ letters
  · obtain rfl | rfl | rfl : c = 'A' ∨ c = 'D' ∨ c = 'M' := by simpa [letters] using named
    all_goals simp [ofLetters?.add, places, letters, eq_comm]
  · have other : ofLetters?.add (places text) c = Option.none := by
      simp only [letters, List.mem_cons, List.not_mem_nil, or_false, not_or] at named
      obtain ⟨a, d, m⟩ := named
      unfold ofLetters?.add
      split
      · exact absurd rfl a
      · exact absurd rfl d
      · exact absurd rfl m
      · rfl
    rw [other]
    constructor
    · intro h
      cases h
    · rintro ⟨place, -⟩
      exact absurd place named

/-- Letters name a destination when each is that of a place and none occurs twice. -/
theorem ofLetters?_eq_some_iff {text : List Char} {dest : Dest} :
    ofLetters? text = some dest ↔ (∀ c ∈ text, c ∈ letters) ∧ text.Nodup ∧ dest = places text := by
  induction text using List.reverseRecOn generalizing dest with
  | nil => simp [ofLetters?, places, none, eq_comm]
  | append_singleton front c ih =>
    have last : ofLetters? (front ++ [c]) = (ofLetters? front).bind (ofLetters?.add · c) := by
      rw [ofLetters?, List.foldlM_append]
      simp [ofLetters?, bind]
    rw [last, Option.bind_eq_some_iff]
    constructor
    · rintro ⟨before, named, added⟩
      obtain ⟨known, once, rfl⟩ := ih.1 named
      obtain ⟨place, fresh, rfl⟩ := add_places.1 added
      refine ⟨?_, ?_, rfl⟩
      · intro x mem
        obtain mem | mem := List.mem_append.1 mem
        · exact known x mem
        · rwa [List.mem_singleton.1 mem]
      · rw [← List.concat_eq_append, List.nodup_concat]
        exact ⟨fresh, once⟩
    · rintro ⟨known, once, rfl⟩
      rw [← List.concat_eq_append, List.nodup_concat] at once
      obtain ⟨fresh, once⟩ := once
      refine ⟨places front, ih.2 ⟨fun x mem => known x (List.mem_append_left _ mem), once, rfl⟩, ?_⟩
      exact add_places.2 ⟨known c (by simp), fresh, rfl⟩

end Dest

namespace Asm

/-! ## Phrases -/

/-- The shape of a name: ASCII letters, digits and four signs, and no digit in front. -/
structure NameText (name : List Char) : Prop where
  filled : name ≠ []
  chars : ∀ c ∈ name, c.isAlpha ∨ c.isDigit ∨ c ∈ ['_', '.', '$', ':']
  first : ∀ c ∈ name.head?, ¬c.isDigit

theorem isName_iff_nameText {name : List Char} : isName name = true ↔ NameText name := by
  have kinds (c : Char) :
      isNameChar c = true ↔ c.isAlpha ∨ c.isDigit ∨ c ∈ ['_', '.', '$', ':'] := by
    simp [isNameChar, Char.isAlphanum, or_assoc]
  rw [isName_iff]
  simp only [kinds]
  constructor
  · rintro ⟨chars, c, head, other⟩
    refine ⟨?_, chars, ?_⟩
    · rintro rfl
      cases head
    · intro x mem
      obtain rfl := Option.some.inj (head.symm.trans mem)
      rw [other]
      exact Bool.false_ne_true
  · rintro ⟨filled, chars, first⟩
    obtain ⟨c, rest, rfl⟩ := List.exists_cons_of_ne_nil filled
    exact ⟨chars, c, rfl, Bool.eq_false_iff.2 (first c rfl)⟩

/-- What stands in front of a computation: nothing, or letters of different places and `=`. -/
inductive Destination : List Char → Dest → Prop
  | absent : Destination [] .none
  | letters {letters : List Char} (known : ∀ c ∈ letters, c ∈ Dest.letters) (once : letters.Nodup) :
    Destination (letters ++ ['=']) (.places letters)

theorem destPart_iff {text : List Char} {dest : Dest} :
    DestPart text dest ↔ Destination text dest := by
  constructor
  · intro h
    cases h with
    | absent => exact .absent
    | letters named =>
      obtain ⟨known, once, rfl⟩ := Dest.ofLetters?_eq_some_iff.1 named
      exact .letters known once
  · intro h
    cases h with
    | absent => exact .absent
    | letters known once => exact .letters (Dest.ofLetters?_eq_some_iff.2 ⟨known, once, rfl⟩)

/-- A cleaned line and the statement it stands for. -/
inductive Phrase : List Char → Statement String → Prop
  | label {name : List Char} (named : NameText name) :
    Phrase ('(' :: (name ++ [')'])) (.label (String.ofList name))
  | reference {name : List Char} (named : NameText name) :
    Phrase ('@' :: name) (.reference (String.ofList name))
  | load {digits : List Char} {value : UInt16} (filled : digits ≠ [])
    (digit : ∀ c ∈ digits, c.isDigit) (number : Nat.ofDigitChars 10 digits 0 = value.toNat)
    (low : value.toNat ≤ 32767) : Phrase ('@' :: digits) (.load value)
  | compute {front text back : List Char} {dest : Dest} {e : Expression} {jump : Jump}
    (before : Destination front dest) (spelled : String.ofList text ∈ e.spellings)
    (behind : JumpPart back jump) :
    Phrase (front ++ text ++ back) (.instr (.compute dest e.comp jump))

theorem phrase_iff_denotes {r : List Char} {s : Statement String} : Phrase r s ↔ Denotes r s := by
  constructor
  · intro h
    cases h with
    | label named => exact .label (isName_iff_nameText.2 named)
    | reference named => exact .reference (isName_iff_nameText.2 named)
    | load filled digit number low => exact .load filled digit number (UInt16.le_iff_toNat_le.2 low)
    | compute before spelled behind =>
      exact .compute (destPart_iff.2 before) (Expression.mem_spellings_iff.2 ⟨_, spelled, rfl⟩) behind
  · intro h
    cases h with
    | label named => exact .label (isName_iff_nameText.1 named)
    | reference named => exact .reference (isName_iff_nameText.1 named)
    | load filled digit number low => exact .load filled digit number (UInt16.le_iff_toNat_le.1 low)
    | compute before spelled behind =>
      obtain ⟨e, among, rfl⟩ := Expression.mem_spellings_iff.1 spelled
      exact .compute (destPart_iff.1 before) among behind

end Asm

end HackPlatform
