import HackPlatform.Json.Basic
import HackPlatform.Json.Quoted

/-!
# Writing JSON

Values are written with one item a line and two blanks of indentation for each level. An empty
container stays on one line.
-/

namespace HackPlatform.Json

/-- A new line at a level of indentation. -/
def newLine (level : Nat) : String :=
  String.ofList ('\n' :: List.replicate (2 * level) ' ')

/-- Parts between brackets, each on a line of its own one level further in. -/
def bracketed (opening closing : String) (level : Nat) (parts : List String) : String :=
  if parts.isEmpty then opening ++ closing
  else
    opening ++ newLine (level + 1) ++ (("," ++ newLine (level + 1)).intercalate parts) ++
      newLine level ++ closing

/-- A value at a level of indentation. -/
def prettyAt (level : Nat) : Json → String
  | null => "null"
  | bool b => if b then "true" else "false"
  | number literal => literal
  | string text => Quoted.encode (text.getD "")
  | array items => bracketed "[" "]" level (items.map fun v => prettyAt (level + 1) v)
  | object members =>
    bracketed "\x7b" "\x7d" level <|
      members.map fun m => Quoted.encode (m.1.getD "") ++ ": " ++ prettyAt (level + 1) m.2
termination_by v => sizeOf v
decreasing_by
  · have := List.sizeOf_lt_of_mem ‹v ∈ items›
    simp only [array.sizeOf_spec]
    omega
  · have := List.sizeOf_lt_of_mem ‹m ∈ members›
    cases m
    simp_all only [object.sizeOf_spec, Prod.mk.sizeOf_spec]
    omega

/-- A value as text. -/
def pretty (v : Json) : String :=
  prettyAt 0 v

end HackPlatform.Json
