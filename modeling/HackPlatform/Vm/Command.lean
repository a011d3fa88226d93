import HackPlatform.Text.Numeral

/-!
# Commands of the stack machine

A command is an operator on the stack, a transfer between the stack and a segment, or control flow
by labels and functions. Its first word, the keyword, fixes how many operands follow; a word that
is no keyword can only be an operator.
-/

namespace HackPlatform.Vm

/-- A comparison of the two topmost words. -/
inductive Relation
  | eq
  | gt
  | lt
  deriving DecidableEq, Repr

/-- An operator on the topmost one or two words. -/
inductive Operator
  | add
  | sub
  | neg
  | compare (r : Relation)
  | and
  | or
  | not
  deriving DecidableEq, Repr

namespace Operator

/-- All operators. -/
def all : List Operator :=
  [add, sub, neg, compare .eq, compare .gt, compare .lt, and, or, not]

/-- The word for an operator. -/
def name : Operator → String
  | add => "add"
  | sub => "sub"
  | neg => "neg"
  | compare .eq => "eq"
  | compare .gt => "gt"
  | compare .lt => "lt"
  | and => "and"
  | or => "or"
  | not => "not"

/-- The operator a word names. -/
def ofName? (word : String) : Option Operator :=
  all.find? fun op => op.name == word

/-- The number of words an operator takes from the stack. -/
def arity : Operator → Nat
  | neg | not => 1
  | _ => 2

/-- Whether an operator is a comparison. -/
def isRelational : Operator → Bool
  | compare _ => true
  | _ => false

theorem ofName?_name (op : Operator) : ofName? op.name = some op := by
  cases op with
  | compare r => cases r <;> decide
  | _ => decide

end Operator

/-- A segment of virtual memory. -/
inductive Segment
  | constant
  | locals
  | argument
  | this
  | that
  | static
  | temp
  | pointer
  deriving DecidableEq, Repr

namespace Segment

/-- All segments. -/
def all : List Segment :=
  [constant, locals, argument, this, that, static, temp, pointer]

/-- The word for a segment. -/
def name : Segment → String
  | constant => "constant"
  | locals => "local"
  | argument => "argument"
  | this => "this"
  | that => "that"
  | static => "static"
  | temp => "temp"
  | pointer => "pointer"

/-- The segment a word names. -/
def ofName? (word : String) : Option Segment :=
  all.find? fun segment => segment.name == word

theorem ofName?_name (segment : Segment) : ofName? segment.name = some segment := by
  cases segment <;> decide

end Segment

/-- The kinds of command, one for each keyword and one for all operators. -/
inductive Kind
  | arithmetic
  | push
  | pop
  | label
  | goto
  | ifGoto
  | function
  | call
  | ret
  deriving DecidableEq, Repr

namespace Kind

/-- The keyword of a kind; operators have none of their own and share the name of their kind. -/
def keyword : Kind → String
  | arithmetic => "arithmetic"
  | push => "push"
  | pop => "pop"
  | label => "label"
  | goto => "goto"
  | ifGoto => "if-goto"
  | function => "function"
  | call => "call"
  | ret => "return"

/-- The kind of a command by its first word: that of the keyword, and else `arithmetic`. -/
def classify (word : String) : Kind :=
  ([push, pop, label, goto, ifGoto, function, call, ret].find? fun kind =>
    kind.keyword == word).getD arithmetic

/-- The number of words that follow the first one. -/
def operandCount : Kind → Nat
  | arithmetic | ret => 0
  | label | goto | ifGoto => 1
  | push | pop | function | call => 2

end Kind

/-- A command. `if-goto` jumps when the popped word is not zero. -/
inductive Command
  | operate (op : Operator)
  | push (segment : Segment) (index : UInt16)
  | pop (segment : Segment) (index : UInt16)
  | label (name : String)
  | goto (name : String)
  | ifGoto (name : String)
  | function (name : String) (localCount : UInt16)
  | call (name : String) (argCount : UInt16)
  | ret
  deriving DecidableEq, Repr

/-- A command was asked for an argument that its kind does not have. -/
structure MissingArgument where
  kind : Kind
  argument : String
  deriving DecidableEq, Repr

/-- The message for a missing argument. -/
def MissingArgument.message (e : MissingArgument) : String :=
  s!"`{e.kind.keyword}` command has no {e.argument}"

namespace Command

/-- The kind of a command. -/
def kind : Command → Kind
  | operate _ => .arithmetic
  | push .. => .push
  | pop .. => .pop
  | label _ => .label
  | goto _ => .goto
  | ifGoto _ => .ifGoto
  | function .. => .function
  | call .. => .call
  | ret => .ret

/-- The first argument: the operator, segment or name. -/
def arg1 : Command → Except MissingArgument String
  | operate op => .ok op.name
  | push segment _ | pop segment _ => .ok segment.name
  | label name | goto name | ifGoto name | function name _ | call name _ => .ok name
  | ret => .error ⟨.ret, "arg1"⟩

/-- The second argument: the index or count. -/
def arg2 : Command → Except MissingArgument UInt16
  | push _ index | pop _ index => .ok index
  | function _ n | call _ n => .ok n
  | c => .error ⟨c.kind, "arg2"⟩

/-- The command as a line of source. -/
def text : Command → String
  | operate op => op.name
  | push segment index => "push " ++ segment.name ++ " " ++ Text.decimal index
  | pop segment index => "pop " ++ segment.name ++ " " ++ Text.decimal index
  | label name => "label " ++ name
  | goto name => "goto " ++ name
  | ifGoto name => "if-goto " ++ name
  | function name n => "function " ++ name ++ " " ++ Text.decimal n
  | call name n => "call " ++ name ++ " " ++ Text.decimal n
  | ret => "return"

end Command

end HackPlatform.Vm
