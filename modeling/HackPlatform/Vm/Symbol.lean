import HackPlatform.Vm.Command

/-!
# Names in translated programs

Every name that a translated program holds says what it stands for: a register of the machine, a
static cell, a function, a label within a scope, or a label made by the translator. All made labels
and all labels outside functions start with `$`, labels within a function hold one in the middle,
and names from the source hold none.
-/

namespace HackPlatform.Vm

/-- The cells with a fixed role. For the length of a block `r13` holds an address or the frame, and
`r14` the return address. -/
inductive Register
  | sp
  | lcl
  | arg
  | this
  | that
  | r13
  | r14
  deriving DecidableEq, Repr

/-- The predefined name of a register. -/
def Register.text : Register → String
  | sp => "SP"
  | lcl => "LCL"
  | arg => "ARG"
  | this => "THIS"
  | that => "THAT"
  | r13 => "R13"
  | r14 => "R14"

/-- The stem of a comparison's labels. -/
def Relation.tag : Relation → String
  | eq => "EQ"
  | gt => "GT"
  | lt => "LT"

/-- What a made label marks: the code for a comparison that holds, the end of a comparison, the
place that a call returns to, or the loop that clears the local variables. -/
inductive Mark
  | holds (r : Relation)
  | done (r : Relation)
  | resume (callee : String)
  | clear
  deriving DecidableEq, Repr

/-- The stem of a made label. -/
def Mark.text : Mark → String
  | holds r => r.tag ++ "_TRUE"
  | done r => r.tag ++ "_END"
  | resume callee => "RETURN_" ++ callee
  | clear => "INIT_LOCALS"

/-- A name of a translated program. A label is declared within a function, or outside all functions
of a unit, or made by the translator, with the number that makes it unique. -/
inductive Symbol
  | register (r : Register)
  | static (unit : String) (index : UInt16)
  | function (name : String)
  | inFunction (function name : String)
  | inUnit (unit name : String)
  | made (mark : Mark) (number : Nat)
  deriving DecidableEq, Repr

/-- The written form of a name. -/
def Symbol.text : Symbol → String
  | register r => r.text
  | static unit index => unit ++ "." ++ Text.decimal index
  | function name => name
  | inFunction f name => f ++ "$" ++ name
  | inUnit unit name => "$" ++ unit ++ "$" ++ name
  | made mark number => "$" ++ mark.text ++ "_" ++ Nat.repr number

end HackPlatform.Vm
