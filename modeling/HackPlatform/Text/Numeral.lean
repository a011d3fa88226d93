/-!
# Numerals

Reading and writing of whole numbers: decimal numerals in the two source languages, sixteen binary
digits for a word, hexadecimal in messages, and the stricter signed reader of the command line,
which says why a numeral was refused.
-/

namespace HackPlatform.Text

/-- The value of a non-empty string of ASCII digits; leading zeros do not matter. -/
def readDecimal? (s : List Char) : Option Nat :=
  if s.isEmpty || !s.all Char.isDigit then none else some (Nat.ofDigitChars 10 s 0)

/-- The value of a string of ASCII digits that fits sixteen bits. -/
def readWord? (s : List Char) : Option UInt16 :=
  match readDecimal? s with
  | some n => if n < 65536 then some n.toUInt16 else none
  | none => none

/-- The decimal numeral of a word, without leading zeros. -/
def decimal (w : UInt16) : String :=
  Nat.repr w.toNat

/-- The sixteen binary digits of a word, most significant first. -/
def binaryDigits (w : UInt16) : List Char :=
  (List.range 16).map fun i => if w.toNat.testBit (15 - i) then '1' else '0'

/-- The word that sixteen binary digits denote. -/
def readBinary? (s : List Char) : Option UInt16 :=
  if s.length == 16 && s.all (fun c => c == '0' || c == '1') then
    some (s.foldl (fun n c => 2 * n + if c == '1' then 1 else 0) 0).toUInt16
  else
    none

/-- The four hexadecimal digits of a word. -/
def hexDigits (w : UInt16) : List Char :=
  [12, 8, 4, 0].map fun shift => Nat.digitChar (w.toNat >>> shift % 16)

/-- The text with blanks before it up to the given width. -/
def padLeft (width : Nat) (s : String) : String :=
  String.ofList (List.replicate (width - s.length) ' ') ++ s

/-- Why a numeral of the command line is refused. -/
inductive NumeralError
  | empty
  | invalidDigit
  | tooLarge
  | tooSmall
  deriving DecidableEq, Repr

/-- The message that goes with each cause. -/
def NumeralError.message : NumeralError → String
  | .empty => "cannot parse integer from empty string"
  | .invalidDigit => "invalid digit found in string"
  | .tooLarge => "number too large to fit in target type"
  | .tooSmall => "number too small to fit in target type"

/-- Reads digits from the left onto `value` and stops at the first that is no digit or that takes
the value beyond `bound`; the latter is the error `beyond`. -/
def readMagnitude (bound : Nat) (beyond : NumeralError) : Nat → List Char → Except NumeralError Nat
  | value, [] => .ok value
  | value, c :: rest =>
    if !c.isDigit then .error .invalidDigit
    else
      let next := value * 10 + (c.toNat - '0'.toNat)
      if bound < next then .error beyond else readMagnitude bound beyond next rest

/-- Reads a whole number between `lo` and `hi`, with an optional sign. A minus sign is a digit
error where no negative number is allowed. -/
def readInt (lo hi : Int) : List Char → Except NumeralError Int
  | [] => .error .empty
  | ['+'] => .error .invalidDigit
  | '+' :: digits => (readMagnitude hi.toNat .tooLarge 0 digits).map Int.ofNat
  | ['-'] => .error .invalidDigit
  | '-' :: digits =>
    if lo < 0 then (readMagnitude (-lo).toNat .tooSmall 0 digits).map fun n => -Int.ofNat n
    else .error .invalidDigit
  | digits => (readMagnitude hi.toNat .tooLarge 0 digits).map Int.ofNat

end HackPlatform.Text
