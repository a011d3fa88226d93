import HackPlatform.Text.Split

/-!
# How a program ends

A program ends well with its output, fails with an error and what is behind it, or was called in a
way that it does not understand.
-/

namespace HackPlatform.Cli

/-- An error with the errors behind it, outermost first. -/
structure Failure where
  message : String
  causes : List String := []
  deriving DecidableEq, Repr

namespace Failure

/-- A text with its later lines indented. -/
def indentLines (indent text : String) : String :=
  ("\n" ++ indent).intercalate ((Text.splitAt (· == '\n') text.toList).map String.ofList)

/-- The causes as a list; only several of them are numbered. -/
def causeText : List String → String
  | [] => ""
  | [cause] => "\n\nCaused by:\n    " ++ indentLines "    " cause
  | causes =>
    "\n\nCaused by:" ++
      String.join (causes.zipIdx.map fun c =>
        "\n    " ++ Nat.repr c.2 ++ ": " ++ indentLines "       " c.1)

/-- The report of a failure. -/
def report (f : Failure) : String :=
  "Error: " ++ f.message ++ causeText f.causes ++ "\n"

end Failure

/-- An action whose error is reported as the given failure. -/
def orFail {m : Type → Type} [Monad m] {ε α : Type} (action : m (Except ε α))
    (failure : ε → Failure) : ExceptT Failure m α :=
  ExceptT.mk do return (← action).mapError failure

/-- How a program ends. It is `usage` when the arguments do not fit. -/
inductive Outcome
  | success (output : String)
  | failure (f : Failure)
  | usage
  deriving DecidableEq, Repr

namespace Outcome

/-- The exit code. -/
def code : Outcome → Nat
  | success _ => 0
  | failure _ => 1
  | usage => 2

/-- What a program writes to standard output. -/
def stdout : Outcome → String
  | success output => output
  | _ => ""

/-- What a program writes to standard error, beside help on its usage. -/
def stderr : Outcome → String
  | failure f => f.report
  | _ => ""

/-- The outcome of an action that answers what is for standard output. -/
def ofAction {m : Type → Type} [Monad m] (action : ExceptT Failure m String) : m Outcome := do
  match ← action.run with
  | .ok output => return .success output
  | .error f => return .failure f

end Outcome

end HackPlatform.Cli
