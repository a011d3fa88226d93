import HackPlatform.Asm.Source
import HackPlatform.Asm.SymbolTable
import HackPlatform.Instr.Encoding

/-!
# Assembly

The first pass gives every label the number of instructions before it; the second turns every other
statement into one word and gives unknown names a variable cell. A name may thus be used before its
label stands.
-/

namespace HackPlatform.Asm

/-- An assembled program. -/
structure Program where
  words : Array UInt16
  symbols : SymbolTable

/-- The first pass: enters the labels, counting instructions from `pc`, and answers the table and
the count. A label must stand at an address, and this is looked at before its name. -/
def defineLabels : List Located → (pc : Nat) → SymbolTable → Except Error (Nat × SymbolTable)
  | [], pc, table => .ok (pc, table)
  | ⟨line, .label name⟩ :: rest, pc, table =>
    if pc > maxAddress.toNat then .error (.romFull line)
    else
      match table.addLabel? name pc.toUInt16 with
      | none => .error (.duplicateLabel line name)
      | some table => defineLabels rest pc table
  | _ :: rest, pc, table => defineLabels rest (pc + 1) table

/-- The second pass: appends the word of every statement that is no label. -/
def emitWords : List Located → Array UInt16 → SymbolTable → Except Error Program
  | [], words, table => .ok ⟨words, table⟩
  | ⟨_, .label _⟩ :: rest, words, table => emitWords rest words table
  | ⟨line, .reference name⟩ :: rest, words, table =>
    match table.resolve? name with
    | none => .error (.outOfVariables line name)
    | some (addr, table) => emitWords rest (words.push (Instr.encode (.address addr))) table
  | ⟨_, .instr i⟩ :: rest, words, table => emitWords rest (words.push i.encode) table

/-- Assembles statements. A program may have one instruction for every address. -/
def assembleStatements (statements : List Located) : Except Error Program :=
  match defineLabels statements 0 .initial with
  | .error e => .error e
  | .ok (count, table) =>
    if count > maxAddress.toNat + 1 then
      .error (.romFull ((statements.getLast?.map Located.line).getD 0))
    else emitWords statements #[] table

/-- Assembles a source text. -/
def assemble (source : String) : Except Error Program :=
  (readSource source).bind assembleStatements

end HackPlatform.Asm
