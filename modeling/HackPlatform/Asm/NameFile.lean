import HackPlatform.Asm.Listing
import HackPlatform.Json.Pretty
import HackPlatform.Json.Reader
import HackPlatform.Json.Record

/-!
# Names in files

The names of a program are exported as a JSON record of labels and variables; a listing takes its
names from a JSON array of such entries.
-/

namespace HackPlatform.Asm

namespace AddressName

/-- The entry that a value denotes; both fields must be given. -/
def ofJson? (v : Json) : Option AddressName := do
  let fields ← v.fields? ["addr", "name"]
  return ⟨← (← fields.lookup "addr").word?, ← (← fields.lookup "name").text?⟩

/-- An entry as JSON. -/
def toJson (n : AddressName) : Json :=
  .ofMembers [("addr", .ofInt n.addr.toNat), ("name", .ofText n.name)]

/-- The entries in a text. -/
def parseList? (text : String) : Option (List AddressName) :=
  match Json.parse? text with
  | some (.array items) => items.mapM ofJson?
  | _ => none

end AddressName

/-- The exported names as JSON. -/
def SymbolNames.toJson (names : SymbolNames) : Json :=
  .ofMembers
    [("labels", .array (names.labels.map AddressName.toJson)),
     ("variables", .array (names.vars.map AddressName.toJson))]

end HackPlatform.Asm
