import HackPlatform.Json.Quoted

/-!
# JSON tokens

The scanner takes one character at a time and remembers the token that it is in. Numbers and words
run as far as their characters do and are checked when they end; two of them side by side are no
JSON in any case.
-/

namespace HackPlatform.Json

/-- A token. -/
inductive Token
  | openBrace
  | closeBrace
  | openBracket
  | closeBracket
  | comma
  | colon
  | null
  | bool (b : Bool)
  | number (literal : String)
  | string (text : Option String)
  deriving DecidableEq, Repr

/-- Where the scanner is: between tokens, in one, or behind a backslash in a string. The characters
of an open token are kept newest first. -/
inductive Scan
  | between
  | word (seen : List Char)
  | number (seen : List Char)
  | quoted (seen : List Char)
  | escape (seen : List Char)
  deriving DecidableEq, Repr

/-- Whether a text is empty or ASCII digits. -/
def isDigits (s : List Char) : Bool :=
  s.all Char.isDigit

/-- Checks the exponent of a number, or that there is none. -/
def isExponent : List Char → Bool
  | [] => true
  | 'e' :: '+' :: digits | 'e' :: '-' :: digits | 'E' :: '+' :: digits | 'E' :: '-' :: digits
  | 'e' :: digits | 'E' :: digits => !digits.isEmpty && isDigits digits
  | _ => false

/-- Checks what follows the whole part of a number: an optional fraction and exponent. -/
def isNumberTail : List Char → Bool
  | '.' :: rest =>
    !(rest.takeWhile Char.isDigit).isEmpty && isExponent (rest.dropWhile Char.isDigit)
  | rest => isExponent rest

/-- Whether a text is a number without sign: its whole part has no needless zero in front. -/
def isUnsignedNumber : List Char → Bool
  | '0' :: rest => isNumberTail rest
  | c :: rest => c.isDigit && isNumberTail (rest.dropWhile Char.isDigit)
  | [] => false

/-- Whether a text is a number. -/
def isNumber : List Char → Bool
  | '-' :: rest => isUnsignedNumber rest
  | s => isUnsignedNumber s

/-- Whether a character may occur in a number. -/
def isNumberChar (c : Char) : Bool :=
  c.isDigit || c == '-' || c == '+' || c == '.' || c == 'e' || c == 'E'

/-- The token of a word. -/
def wordToken? (word : List Char) : Option Token :=
  if word = ['n', 'u', 'l', 'l'] then some .null
  else if word = ['t', 'r', 'u', 'e'] then some (.bool true)
  else if word = ['f', 'a', 'l', 's', 'e'] then some (.bool false)
  else none

/-- The token of a number. -/
def numberToken? (literal : List Char) : Option Token :=
  if isNumber literal then some (.number (String.ofList literal)) else none

/-- Takes a character that no open token claims. `done` holds the finished tokens, newest first. -/
def scanBetween (done : List Token) (c : Char) : Option (List Token × Scan) :=
  if c == ' ' || c == '\n' || c == '\t' || c == '\r' then some (done, .between)
  else if c == '\x7b' then some (.openBrace :: done, .between)
  else if c == '\x7d' then some (.closeBrace :: done, .between)
  else if c == '[' then some (.openBracket :: done, .between)
  else if c == ']' then some (.closeBracket :: done, .between)
  else if c == ',' then some (.comma :: done, .between)
  else if c == ':' then some (.colon :: done, .between)
  else if c == '"' then some (done, .quoted [])
  else if c.isDigit || c == '-' then some (done, .number [c])
  else if c.isLower then some (done, .word [c])
  else none

/-- Takes one character. -/
def scanChar (state : List Token × Scan) (c : Char) : Option (List Token × Scan) :=
  match state with
  | (done, .between) => scanBetween done c
  | (done, .word seen) =>
    if c.isLower then some (done, .word (c :: seen))
    else do scanBetween ((← wordToken? seen.reverse) :: done) c
  | (done, .number seen) =>
    if isNumberChar c then some (done, .number (c :: seen))
    else do scanBetween ((← numberToken? seen.reverse) :: done) c
  | (done, .quoted seen) =>
    if c == '"' then do return (.string (← Quoted.decode? seen.reverse) :: done, .between)
    else if c == '\\' then some (done, .escape (c :: seen))
    else if c.toNat < 0x20 then none
    else some (done, .quoted (c :: seen))
  | (done, .escape seen) => some (done, .quoted (c :: seen))

/-- The tokens when the text is over, newest first. -/
def scanEnd : List Token × Scan → Option (List Token)
  | (done, .between) => some done
  | (done, .word seen) => do return (← wordToken? seen.reverse) :: done
  | (done, .number seen) => do return (← numberToken? seen.reverse) :: done
  | _ => none

/-- The tokens of a text. -/
def tokens? (text : List Char) : Option (List Token) := do
  return (← scanEnd (← text.foldlM scanChar ([], .between))).reverse

end HackPlatform.Json
