import HackPlatform.Json.Basic
import HackPlatform.Json.Token

/-!
# Reading JSON

The reader goes through the tokens once and keeps the containers that are still open in a list, so
that depth is no obstacle.
-/

namespace HackPlatform.Json

/-- A container that is still open, with its finished parts, newest first. An object with a key
waits for its value. -/
inductive Frame
  | array (items : List Json)
  | object (members : List (Option String × Json)) (key : Option String)

/-- What may come next: a value; a value or the end of an array that was just opened; a key or the
end of an object that was just opened; a key; the colon behind a key; or what may follow a finished
value. -/
inductive Expect
  | value (frames : List Frame)
  | item (frames : List Frame)
  | firstKey (frames : List Frame)
  | key (members : List (Option String × Json)) (frames : List Frame)
  | colon (members : List (Option String × Json)) (key : Option String) (frames : List Frame)
  | next (v : Json) (frames : List Frame)

/-- Takes the first token of a value. -/
def openValue (frames : List Frame) : Token → Option Expect
  | .null => some (.next .null frames)
  | .bool b => some (.next (.bool b) frames)
  | .number literal => some (.next (.number literal) frames)
  | .string text => some (.next (.string text) frames)
  | .openBracket => some (.item frames)
  | .openBrace => some (.firstKey frames)
  | _ => none

/-- Takes a token behind a finished value. -/
def closeValue (v : Json) : List Frame → Token → Option Expect
  | .array items :: frames, .comma => some (.value (.array (v :: items) :: frames))
  | .array items :: frames, .closeBracket => some (.next (.array (v :: items).reverse) frames)
  | .object members key :: frames, .comma => some (.key ((key, v) :: members) frames)
  | .object members key :: frames, .closeBrace =>
    some (.next (.object ((key, v) :: members).reverse) frames)
  | _, _ => none

/-- Takes one token. -/
def readToken : Expect → Token → Option Expect
  | .value frames, t => openValue frames t
  | .item frames, .closeBracket => some (.next (.array []) frames)
  | .item frames, t => openValue (.array [] :: frames) t
  | .firstKey frames, .closeBrace => some (.next (.object []) frames)
  | .firstKey frames, .string key => some (.colon [] key frames)
  | .key members frames, .string key => some (.colon members key frames)
  | .colon members key frames, .colon => some (.value (.object members key :: frames))
  | .next v frames, t => closeValue v frames t
  | _, _ => none

/-- The value when the tokens are over. -/
def readEnd : Expect → Option Json
  | .next v [] => some v
  | _ => none

/-- The value that a text denotes, if it is JSON. -/
def parse? (text : String) : Option Json := do
  readEnd (← (← tokens? text.toList).foldlM readToken (.value []))

end HackPlatform.Json
