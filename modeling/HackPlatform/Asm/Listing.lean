import Std.Data.TreeMap
import HackPlatform.Asm.SymbolTable
import HackPlatform.Instr.Encoding

/-!
# Listings

A listing shows a program word by word, with the names of its labels where a label stands and where
a jump target is loaded. Addresses have sixteen bits: a word beyond them is shown at the address
that is left when the higher bits are cut off, with the label, the raw bits and the next instruction
found there.
-/

namespace HackPlatform.Asm

/-- A name for an address. -/
structure AddressName where
  addr : UInt16
  name : String
  deriving DecidableEq, Repr

/-- The names known for addresses, one each. -/
abbrev LabelMap := Std.TreeMap UInt16 String

/-- The map of a list of names; a later name for an address replaces an earlier one. -/
def LabelMap.ofNames (names : List AddressName) : LabelMap :=
  names.foldl (fun map n => map.insert n.addr n.name) ∅

/-- The names that a symbol table exports. -/
structure SymbolNames where
  labels : List AddressName
  vars : List AddressName
  deriving DecidableEq, Repr

/-- The labels in definition order and the variables by address. -/
def SymbolTable.names (t : SymbolTable) : SymbolNames where
  labels := t.labelRows.map fun p => ⟨p.2, p.1⟩
  vars := t.variableRows.map fun p => ⟨p.2, p.1⟩

/-- The text of an instruction. A load shows the label of its value when the instruction after it
jumps. -/
def labelledText (labels : LabelMap) (i : Instr) (next : Option Instr) : String :=
  match i, next with
  | .address value, some (.compute _ _ jump) =>
    match if jump = .never then none else labels[value]? with
    | some name => "@" ++ name
    | none => i.text
  | _, _ => i.text

namespace Listing

/-- The text of the word with the given index, after its address and bits. -/
def wordText (words : Array UInt16) (labels : LabelMap) (index : Nat) (word : UInt16) : String :=
  match Instr.decode? word with
  | some i =>
    labelledText labels i ((words[index.toUInt16.toNat + 1]?).bind Instr.decode?)
  | none =>
    ".word 0x" ++ String.ofList (Text.hexDigits (words.getD index.toUInt16.toNat 0))

/-- The lines of the word with the given index: its label, if its address has one, and the word. -/
def wordLines (words : Array UInt16) (labels : LabelMap) (bits : Bool) (index : Nat)
    (word : UInt16) : List String :=
  let addr := index.toUInt16
  let shownBits :=
    if bits then String.ofList (Text.binaryDigits (words.getD addr.toNat 0)) ++ "  " else ""
  let line :=
    Text.padLeft 5 (Text.decimal addr) ++ ": " ++ shownBits ++ wordText words labels index word
  match labels[addr]? with
  | some name => ["(" ++ name ++ ")", line]
  | none => [line]

/-- The lines of a listing. -/
def lines (words : Array UInt16) (labels : LabelMap) (bits : Bool) : List String :=
  words.toList.zipIdx.flatMap fun p => wordLines words labels bits p.2 p.1

/-- A listing as text. -/
def render (words : Array UInt16) (labels : LabelMap) (bits : Bool) : String :=
  (lines words labels bits).foldl (fun text line => text ++ line ++ "\n") ""

end Listing

end HackPlatform.Asm
