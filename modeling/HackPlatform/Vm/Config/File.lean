import HackPlatform.Json.Reader
import HackPlatform.Json.Record
import HackPlatform.Vm.Config

/-!
# Settings in a file

A settings file is a JSON record; what it leaves out has its default.
-/

namespace HackPlatform.Vm

/-- The choice that a value names: its name, or an object with the name as its only key and the
value null. -/
def Bootstrap.ofJson? : Json → Option Bootstrap
  | .string (some name) => ofName? name
  | .object [(some name, .null)] => ofName? name
  | _ => none

namespace Config

/-- The names of the fields, in order. -/
def fieldNames : List String :=
  ["bootstrap", "entry", "stack_base", "annotate"]

/-- The value of a field: what is given, as far as it can be read, and else the default. -/
def field? {α : Type} (fields : List (String × Json)) (name : String) (read : Json → Option α)
    (default : α) : Option α :=
  match fields.lookup name with
  | some v => read v
  | none => some default

/-- The settings that a value denotes. -/
def ofJson? (v : Json) : Option Config := do
  let fields ← v.fields? fieldNames
  let standard : Config := {}
  return {
    bootstrap := ← field? fields "bootstrap" Bootstrap.ofJson? standard.bootstrap
    entry := ← field? fields "entry" Json.text? standard.entry
    stackBase := ← field? fields "stack_base" Json.word? standard.stackBase
    annotate := ← field? fields "annotate" Json.bool? standard.annotate }

/-- The settings in a text. -/
def parse? (text : String) : Option Config :=
  (Json.parse? text).bind ofJson?

end Config

end HackPlatform.Vm
