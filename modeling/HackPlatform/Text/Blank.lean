import HackPlatform.Text.Split

/-!
# Blank characters

Source text is cut into words at blank characters, and a line is trimmed of them at both ends.
Blank is the Unicode property White_Space, so the table below is data of that standard.
-/

namespace HackPlatform.Text

/-- The code point ranges, ends included, of the characters with the property White_Space. -/
def blankRanges : List (Nat × Nat) :=
  [(0x9, 0xD), (0x20, 0x20), (0x85, 0x85), (0xA0, 0xA0), (0x1680, 0x1680), (0x2000, 0x200A),
   (0x2028, 0x2029), (0x202F, 0x202F), (0x205F, 0x205F), (0x3000, 0x3000)]

/-- Whether a character is white space. -/
def isBlank (c : Char) : Bool :=
  blankRanges.any fun r => decide (r.1 ≤ c.toNat) && decide (c.toNat ≤ r.2)

theorem isBlank_iff {c : Char} :
    isBlank c = true ↔ ∃ r ∈ blankRanges, r.1 ≤ c.toNat ∧ c.toNat ≤ r.2 := by
  simp [isBlank]

/-- The text without the blank characters at its two ends. -/
def trim (s : List Char) : List Char :=
  ((s.dropWhile isBlank).reverse.dropWhile isBlank).reverse

/-- The text without any of its blank characters. -/
def squeeze (s : List Char) : List Char :=
  s.filter fun c => !isBlank c

/-- The maximal runs of characters that are not blank, in order. -/
def words (s : List Char) : List (List Char) :=
  (splitAt isBlank s).filter fun w => !w.isEmpty

end HackPlatform.Text
