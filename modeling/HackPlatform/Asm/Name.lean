/-!
# Names in assembly language

A name is made of ASCII letters, digits and `_ . $ :`, and does not start with a digit, so that a
numeral is never a name.
-/

namespace HackPlatform.Asm

/-- Whether a character may occur in a name. -/
def isNameChar (c : Char) : Bool :=
  c.isAlphanum || c == '_' || c == '.' || c == '$' || c == ':'

/-- Whether a text is a name. -/
def isName : List Char → Bool
  | [] => false
  | c :: rest => !c.isDigit && isNameChar c && rest.all isNameChar

theorem isName_iff {s : List Char} :
    isName s = true ↔
      (∀ c ∈ s, isNameChar c = true) ∧ ∃ c, s.head? = some c ∧ c.isDigit = false := by
  cases s with
  | nil => simp [isName]
  | cons c rest => grind [isName]

end HackPlatform.Asm
