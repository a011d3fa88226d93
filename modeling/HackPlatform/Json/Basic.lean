import HackPlatform.Text.Numeral

/-!
# JSON values

Values as they stand in a text: a number keeps its literal, an object its members in order, repeated
ones included. A text that names half of a surrogate pair alone denotes no string of characters and
is kept as `none`; where a string is needed it is refused.
-/

namespace HackPlatform

/-- A JSON value. -/
inductive Json
  | null
  | bool (b : Bool)
  | number (literal : String)
  | string (text : Option String)
  | array (items : List Json)
  | object (members : List (Option String × Json))

namespace Json

/-- The string of a value that is one. -/
def text? : Json → Option String
  | string text => text
  | _ => none

/-- The truth value of a value that is one. -/
def bool? : Json → Option Bool
  | bool b => some b
  | _ => none

/-- The word of a number that is written with digits alone and fits. -/
def word? : Json → Option UInt16
  | number literal => Text.readWord? literal.toList
  | _ => none

/-- The number with the given value. -/
def ofInt (n : Int) : Json :=
  number (toString n)

/-- The string with the given text. -/
def ofText (text : String) : Json :=
  string (some text)

/-- The object with the given members. -/
def ofMembers (members : List (String × Json)) : Json :=
  object (members.map fun m => (some m.1, m.2))

end Json

end HackPlatform
