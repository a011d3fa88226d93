import HackPlatform.Json.Basic

/-!
# Records in JSON

A record with named fields is read from an object, where each known key may stand once and other
keys are passed over, or from an array of its fields in order.
-/

namespace HackPlatform.Json

/-- The members of an object under known keys. A known key that is repeated, or any key that is no
string of characters, makes the object unreadable. -/
def knownMembers? (known : List String) (found : List (String × Json)) :
    List (Option String × Json) → Option (List (String × Json))
  | [] => some found
  | (none, _) :: _ => none
  | (some key, v) :: rest =>
    if !known.contains key then knownMembers? known found rest
    else if (found.lookup key).isSome then none
    else knownMembers? known ((key, v) :: found) rest

/-- The fields of a record that are given, with their names; `known` lists all names in order. -/
def fields? (known : List String) : Json → Option (List (String × Json))
  | object members => knownMembers? known [] members
  | array items => if items.length ≤ known.length then some (known.zip items) else none
  | _ => none

end HackPlatform.Json
