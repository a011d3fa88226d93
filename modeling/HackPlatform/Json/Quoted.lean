/-!
# Quoted text

The text between two quotation marks in JSON, with escapes. A character outside the first plane may
be written as two escapes that form a surrogate pair.
-/

namespace HackPlatform.Json.Quoted

/-- A piece of quoted text: a character, or a surrogate named by an escape. -/
inductive Piece
  | char (c : Char)
  | surrogate (code : Nat)
  deriving DecidableEq, Repr

/-- The value of a hexadecimal digit. -/
def hexValue? (c : Char) : Option Nat :=
  if c.isDigit then some (c.toNat - '0'.toNat)
  else if 'a' ≤ c ∧ c ≤ 'f' then some (c.toNat - 'a'.toNat + 10)
  else if 'A' ≤ c ∧ c ≤ 'F' then some (c.toNat - 'A'.toNat + 10)
  else none

/-- The piece with a code of sixteen bits. -/
def pieceOf (code : Nat) : Piece :=
  if 0xD800 ≤ code ∧ code < 0xE000 then .surrogate code else .char (Char.ofNat code)

/-- The piece that four hexadecimal digits name. -/
def pieceOfHex? (a b c d : Char) : Option Piece := do
  let code := (((← hexValue? a) * 16 + (← hexValue? b)) * 16 + (← hexValue? c)) * 16
  return pieceOf (code + (← hexValue? d))

/-- The character that a one-letter escape stands for. -/
def simpleEscape? : Char → Option Char
  | '"' => some '"'
  | '\\' => some '\\'
  | '/' => some '/'
  | 'b' => some '\x08'
  | 'f' => some '\x0c'
  | 'n' => some '\n'
  | 'r' => some '\r'
  | 't' => some '\t'
  | _ => none

/-- Resolves the escapes of a quoted text; `done` holds the earlier pieces, newest first. -/
def pieces? (done : List Piece) : List Char → Option (List Piece)
  | [] => some done.reverse
  | '\\' :: 'u' :: a :: b :: c :: d :: rest =>
    match pieceOfHex? a b c d with
    | some piece => pieces? (piece :: done) rest
    | none => none
  | ['\\'] => none
  | '\\' :: e :: rest =>
    match simpleEscape? e with
    | some c => pieces? (.char c :: done) rest
    | none => none
  | c :: rest => pieces? (.char c :: done) rest

/-- The character of a surrogate pair. -/
def joinPair (high low : Nat) : Char :=
  Char.ofNat (0x10000 + (high - 0xD800) * 0x400 + (low - 0xDC00))

/-- The characters that pieces denote, unless a surrogate has no partner. -/
def characters? (done : List Char) : List Piece → Option (List Char)
  | [] => some done.reverse
  | .char c :: rest => characters? (c :: done) rest
  | .surrogate high :: .surrogate low :: rest =>
    if high < 0xDC00 ∧ 0xDC00 ≤ low then characters? (joinPair high low :: done) rest else none
  | .surrogate _ :: _ => none

/-- The text that a quoted text denotes: `none` when an escape is no escape, and `some none` when a
surrogate has no partner. -/
def decode? (quoted : List Char) : Option (Option String) :=
  (pieces? [] quoted).map fun pieces => (characters? [] pieces).map String.ofList

/-- One character as it is written between quotation marks. -/
def encodeChar (c : Char) : List Char :=
  match c with
  | '"' => ['\\', '"']
  | '\\' => ['\\', '\\']
  | '\x08' => ['\\', 'b']
  | '\x0c' => ['\\', 'f']
  | '\n' => ['\\', 'n']
  | '\r' => ['\\', 'r']
  | '\t' => ['\\', 't']
  | _ =>
    if c.toNat < 0x20 then
      ['\\', 'u', '0', '0', Nat.digitChar (c.toNat / 16), Nat.digitChar (c.toNat % 16)]
    else [c]

/-- A text with its quotation marks. -/
def encode (text : String) : String :=
  String.ofList ('"' :: text.toList.flatMap encodeChar ++ ['"'])

end HackPlatform.Json.Quoted
