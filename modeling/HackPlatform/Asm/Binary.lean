import HackPlatform.Asm.Error
import HackPlatform.Text.Line
import HackPlatform.Text.Numeral

/-!
# Binary program text

A program file holds one word a line, as sixteen binary digits. Blank lines and blanks around a word
are allowed when it is read.
-/

namespace HackPlatform.Asm.Binary

/-- The text of a list of words. -/
def render (words : List UInt16) : String :=
  String.ofList (words.flatMap fun w => Text.binaryDigits w ++ ['\n'])

/-- Reads the word of a trimmed line that is not empty. -/
def readWord (l : Nat × List Char) : Except Error UInt16 :=
  match Text.readBinary? l.2 with
  | some w => .ok w
  | none => .error (.malformed l.1 (String.ofList l.2) .badWord)

/-- The trimmed lines that are not empty, with their numbers. -/
def wordLines (text : List Char) : List (Nat × List Char) :=
  ((Text.numberedLines text).map fun l => (l.1, Text.trim l.2)).filter fun l => !l.2.isEmpty

/-- The words of a program text, or the error of the first line that is no word. -/
def parse (text : String) : Except Error (List UInt16) :=
  (wordLines text.toList).mapM readWord

end HackPlatform.Asm.Binary
