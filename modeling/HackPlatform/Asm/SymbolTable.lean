import Std.Data.TreeMap
import HackPlatform.Instr.Basic

/-!
# The symbol table of the assembler

One map holds the predefined names, the labels and the variables, so a name has one meaning. Beside
it stand the labels and the variables in the order in which they came. Variables take the cells
from 16 up, below the screen.
-/

namespace HackPlatform.Asm

/-- The names every program may use, with their addresses. -/
def predefined : List (String × UInt16) :=
  [("SP", 0), ("LCL", 1), ("ARG", 2), ("THIS", 3), ("THAT", 4), ("R0", 0), ("R1", 1), ("R2", 2),
   ("R3", 3), ("R4", 4), ("R5", 5), ("R6", 6), ("R7", 7), ("R8", 8), ("R9", 9), ("R10", 10),
   ("R11", 11), ("R12", 12), ("R13", 13), ("R14", 14), ("R15", 15), ("SCREEN", 16384),
   ("KBD", 24576)]

/-- The address of the first variable. -/
def firstVariable : UInt16 := 16

/-- The first address behind the variables. -/
def screenStart : UInt16 := 16384

/-- The names of a program: the address of every known name, the labels in the order of their
definitions, the variables in the order of their first uses, and the cell of the next variable. -/
structure SymbolTable where
  addresses : Std.TreeMap String UInt16
  labels : Array (String × UInt16)
  vars : Array (String × UInt16)
  nextVariable : UInt16

namespace SymbolTable

/-- The table that knows the predefined names only. -/
def initial : SymbolTable where
  addresses := Std.TreeMap.ofList predefined
  labels := #[]
  vars := #[]
  nextVariable := firstVariable

/-- The address of a name. -/
def get? (t : SymbolTable) (name : String) : Option UInt16 :=
  t.addresses[name]?

/-- Whether a name is known. -/
def contains (t : SymbolTable) (name : String) : Bool :=
  t.addresses.contains name

/-- Defines a label, unless its name is known already. -/
def addLabel? (t : SymbolTable) (name : String) (addr : UInt16) : Option SymbolTable :=
  if t.contains name then none
  else
    some { t with
      addresses := t.addresses.insert name addr
      labels := t.labels.push (name, addr) }

/-- The address of a name, which becomes a variable when it is not known; there is none when the
cells have run out. -/
def resolve? (t : SymbolTable) (name : String) : Option (UInt16 × SymbolTable) :=
  match t.get? name with
  | some addr => some (addr, t)
  | none =>
    if screenStart ≤ t.nextVariable then none
    else
      let addr := t.nextVariable
      some (addr,
        { t with
          addresses := t.addresses.insert name addr
          vars := t.vars.push (name, addr)
          nextVariable := addr + 1 })

/-- The labels in the order of their definitions, at the addresses that the map has for them. -/
def labelRows (t : SymbolTable) : List (String × UInt16) :=
  t.labels.toList.filterMap fun row => (t.get? row.1).map (row.1, ·)

/-- Whether a known name is a variable: one that is neither a label nor predefined. -/
def isVariable (t : SymbolTable) (name : String) : Bool :=
  !t.labels.any (·.1 == name) && !predefined.any (·.1 == name)

/-- The variables among entries of the map, by address. -/
def sortVariables (t : SymbolTable) (entries : List (String × UInt16)) :
    List (String × UInt16) :=
  (entries.filter fun entry => t.isVariable entry.1).mergeSort fun a b => decide (a.2 ≤ b.2)

/-- The variables by address. -/
def variableRows (t : SymbolTable) : List (String × UInt16) :=
  t.sortVariables t.addresses.toList

theorem get?_of_addLabel? {t next : SymbolTable} {name : String} {addr : UInt16}
    (h : t.addLabel? name addr = some next) : next.get? name = some addr := by
  unfold addLabel? at h
  split at h <;> simp at h
  subst h
  simp [get?]

/-- A resolved name keeps its address. -/
theorem get?_of_resolve? {t next : SymbolTable} {name : String} {addr : UInt16}
    (h : t.resolve? name = some (addr, next)) : next.get? name = some addr := by
  unfold resolve? at h
  split at h
  · next known =>
    simp only [Option.some.injEq, Prod.mk.injEq] at h
    obtain ⟨rfl, rfl⟩ := h
    exact known
  · split at h <;> simp at h
    obtain ⟨rfl, rfl⟩ := h
    simp [get?]

end SymbolTable

end HackPlatform.Asm
