import HackPlatform.Instr.Basic
import HackPlatform.Text.Numeral

/-!
# The written form of instructions

Each named computation, destination set and jump has one canonical spelling. A sum, conjunction or
disjunction may also be read with its operands exchanged, and destination letters in any order.
-/

namespace HackPlatform

namespace Comp

/-- The computations with a name. -/
def table : List (String × Comp) :=
  [("0", zero), ("1", one), ("-1", minusOne), ("D", d), ("A", a), ("!D", notD), ("!A", notA),
   ("-D", negD), ("-A", negA), ("D+1", dPlusOne), ("A+1", aPlusOne), ("D-1", dMinusOne),
   ("A-1", aMinusOne), ("D+A", dPlusA), ("D-A", dMinusA), ("A-D", aMinusD), ("D&A", dAndA),
   ("D|A", dOrA), ("M", m), ("!M", notM), ("-M", negM), ("M+1", mPlusOne), ("M-1", mMinusOne),
   ("D+M", dPlusM), ("D-M", dMinusM), ("M-D", mMinusD), ("D&M", dAndM), ("D|M", dOrM)]

/-- Spellings with exchanged operands, beside the computation each stands for. -/
def exchanged : List (String × Comp) :=
  [("A+D", dPlusA), ("M+D", dPlusM), ("A&D", dAndA), ("M&D", dAndM), ("A|D", dOrA), ("M|D", dOrM),
   ("1+D", dPlusOne), ("1+A", aPlusOne), ("1+M", mPlusOne)]

/-- The computation that a text spells. -/
def ofText? (text : String) : Option Comp :=
  (table ++ exchanged).lookup text

/-- The canonical spelling of a computation that has one. -/
def text? (c : Comp) : Option String :=
  (table.find? fun row => row.2 = c).map (·.1)

/-- Whether the control lines are those of a computation with a name. -/
def isNamed (c : Comp) : Bool :=
  table.any fun row => row.2 = c

theorem isNamed_eq_isSome_text? (c : Comp) : c.isNamed = c.text?.isSome := by
  rw [Bool.eq_iff_iff]
  simp [isNamed, text?]

end Comp

namespace Dest

/-- The letters of the set, in the order A, M, D. -/
def text (dest : Dest) : String :=
  (if dest.a then "A" else "") ++ (if dest.m then "M" else "") ++ if dest.d then "D" else ""

/-- The set that a list of letters names; no letter may occur twice. -/
def ofLetters? (letters : List Char) : Option Dest :=
  letters.foldlM add none
where
  /-- The set with one more member, if it is not one already. -/
  add (dest : Dest) : Char → Option Dest
    | 'A' => if dest.a then Option.none else some { dest with a := true }
    | 'D' => if dest.d then Option.none else some { dest with d := true }
    | 'M' => if dest.m then Option.none else some { dest with m := true }
    | _ => Option.none

end Dest

namespace Jump

/-- The jump conditions in the order of their codes. -/
def all : List Jump :=
  [never, gt, eq, ge, lt, ne, le, always]

/-- The name of a jump condition; falling through has the empty name. -/
def text : Jump → String
  | never => ""
  | gt => "JGT"
  | eq => "JEQ"
  | ge => "JGE"
  | lt => "JLT"
  | ne => "JNE"
  | le => "JLE"
  | always => "JMP"

/-- The condition with the given name. -/
def ofText? (name : String) : Option Jump :=
  all.find? fun j => j.text == name

theorem ofText?_text (j : Jump) : ofText? j.text = some j := by
  cases j <;> decide

end Jump

/-- The instruction in assembly language, `?` standing for a computation without a name. -/
def Instr.text : Instr → String
  | .address value => "@" ++ Text.decimal value
  | .compute dest comp jump =>
    (if dest.isNone then "" else dest.text ++ "=") ++ comp.text?.getD "?" ++
      if jump = .never then "" else ";" ++ jump.text

end HackPlatform
