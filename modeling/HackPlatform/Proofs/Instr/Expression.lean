import HackPlatform.Proofs.Machine.Value

/-!
# Computations as expressions

A computation is written as an expression over D, A and M, the cell at A: a constant, a place, its
complement, negative, successor or predecessor, or D and another place joined. `value_comp` says
that the control lines of the canonical spelling compute what the expression means on signed words
of sixteen bits, and `mem_spellings_iff` that the spellings are those of the tables.
-/

namespace HackPlatform

/-- A place besides D that an expression reads. -/
inductive Second
  | a
  | m
  deriving DecidableEq, Repr

/-- A place that an expression reads. -/
inductive Operand
  | d
  | second (y : Second)
  deriving DecidableEq, Repr

/-- What a computation computes. With two places these are `D+y`, `D-y`, `y-D`, `D&y` and `D|y`, in
this order. -/
inductive Expression
  | zero
  | one
  | minusOne
  | place (x : Operand)
  | not (x : Operand)
  | neg (x : Operand)
  | succ (x : Operand)
  | pred (x : Operand)
  | plus (y : Second)
  | minus (y : Second)
  | less (y : Second)
  | and (y : Second)
  | or (y : Second)
  deriving DecidableEq, Repr

/-- The letter of a place. -/
def Second.text : Second → String
  | a => "A"
  | m => "M"

def Operand.text : Operand → String
  | d => "D"
  | second y => y.text

namespace Expression

/-- The canonical spelling. -/
def text : Expression → String
  | zero => "0"
  | one => "1"
  | minusOne => "-1"
  | place x => x.text
  | not x => "!" ++ x.text
  | neg x => "-" ++ x.text
  | succ x => x.text ++ "+1"
  | pred x => x.text ++ "-1"
  | plus y => "D+" ++ y.text
  | minus y => "D-" ++ y.text
  | less y => y.text ++ "-D"
  | and y => "D&" ++ y.text
  | or y => "D|" ++ y.text

/-- The spelling with exchanged operands, where the order does not matter. -/
def exchanged? : Expression → Option String
  | succ x => some ("1+" ++ x.text)
  | plus y => some (y.text ++ "+D")
  | and y => some (y.text ++ "&D")
  | or y => some (y.text ++ "|D")
  | _ => none

/-- The ways to write an expression. -/
def spellings (e : Expression) : List String :=
  e.text :: e.exchanged?.toList

/-- The control lines of the canonical spelling. -/
def comp (e : Expression) : Comp :=
  (Comp.table.lookup e.text).getD .zero

/-- All expressions. -/
def all : List Expression :=
  [zero, one, minusOne] ++
  [.d, .second .a, .second .m].flatMap (fun x => [place x, not x, neg x, succ x, pred x]) ++
  [.a, .m].flatMap fun y => [plus y, minus y, less y, and y, or y]

theorem mem_all (e : Expression) : e ∈ all := by
  cases e with
  | zero | one | minusOne => decide
  | place x | not x | neg x | succ x | pred x =>
    cases x with
    | d => decide
    | second y => cases y <;> decide
  | plus y | minus y | less y | and y | or y => cases y <;> decide

example : all.length = 28 ∧ (all.flatMap spellings).length = 37 := by decide

/-- The tables list each spelling with the control lines of its canonical one, and no others. -/
theorem mem_spellings_iff {text : String} {c : Comp} :
    (text, c) ∈ Comp.table ++ Comp.exchanged ↔
      ∃ e : Expression, text ∈ e.spellings ∧ c = e.comp := by
  have listed : ∀ row ∈ Comp.table ++ Comp.exchanged,
      ∃ e ∈ all, row.1 ∈ e.spellings ∧ row.2 = e.comp := by
    decide
  have known : ∀ e ∈ all, ∀ text ∈ e.spellings, (text, e.comp) ∈ Comp.table ++ Comp.exchanged := by
    decide
  constructor
  · intro mem
    obtain ⟨e, -, spelled⟩ := listed _ mem
    exact ⟨e, spelled⟩
  · rintro ⟨e, spelled, rfl⟩
    exact known e (mem_all e) text spelled

/-- No two expressions share a spelling. -/
theorem spellings_injective {e e' : Expression} {text : String} (h : text ∈ e.spellings)
    (h' : text ∈ e'.spellings) : e = e' := by
  have apart : ∀ e ∈ all, ∀ e' ∈ all, ∀ text ∈ e.spellings, text ∈ e'.spellings → e = e' := by
    decide
  exact apart e (mem_all e) e' (mem_all e') text h h'

end Expression

/-! ## Meaning -/

section Pick

variable {α β : Type}

/-- What is at a place, given what is in A and in the cell at A. -/
def Second.pick (atA cell : α) : Second → α
  | a => atA
  | m => cell

def Operand.pick (inD atA cell : α) : Operand → α
  | d => inD
  | second y => y.pick atA cell

theorem Second.map_pick (f : α → β) (atA cell : α) (y : Second) :
    f (y.pick atA cell) = y.pick (f atA) (f cell) := by
  cases y <;> rfl

theorem Operand.map_pick (f : α → β) (inD atA cell : α) (x : Operand) :
    f (x.pick inD atA cell) = x.pick (f inD) (f atA) (f cell) := by
  cases x with
  | d => rfl
  | second y => exact y.map_pick f atA cell

end Pick

namespace Expression

/-- The value of an expression on signed words. -/
def eval (d a cell : Int16) : Expression → Int16
  | zero => 0
  | one => 1
  | minusOne => -1
  | place x => x.pick d a cell
  | not x => ~~~(x.pick d a cell)
  | neg x => -x.pick d a cell
  | succ x => x.pick d a cell + 1
  | pred x => x.pick d a cell - 1
  | plus y => d + y.pick a cell
  | minus y => d - y.pick a cell
  | less y => y.pick a cell - d
  | and y => d &&& y.pick a cell
  | or y => d ||| y.pick a cell

/-- Whether an expression reads the cell. -/
def readsCell : Expression → Bool
  | zero | one | minusOne => false
  | place x | not x | neg x | succ x | pred x => x = .second .m
  | plus y | minus y | less y | and y | or y => y = .m

theorem readsMemory_comp (e : Expression) : e.comp.readsMemory = e.readsCell := by
  have same : ∀ e ∈ all, e.comp.readsMemory = e.readsCell := by decide
  exact same e (mem_all e)

open HackPlatform.Comp

variable (d a cell : UInt16)

/-- The ALU takes D as its first input, and A or the cell as its second, in place of which all ones
stand where an expression has one place only. -/
theorem value_of_place (x : Operand) :
    (place x).comp.value d a cell = x.pick d a cell ∧
      (not x).comp.value d a cell = ~~~(x.pick d a cell) ∧
      (neg x).comp.value d a cell = -x.pick d a cell ∧
      (succ x).comp.value d a cell = x.pick d a cell + 1 ∧
      (pred x).comp.value d a cell = x.pick d a cell - 1 := by
  cases x with
  | d =>
    refine ⟨?_, ?_, ?_, ?_, ?_⟩
    · show d &&& ~~~0 = d
      simp
    · show ~~~(d &&& ~~~0) = ~~~d
      simp
    · show ~~~(d + ~~~0) = -d
      rw [add_not_zero, UInt16.not_eq_neg_sub]
      grind
    · show ~~~(~~~d + ~~~0) = d + 1
      rw [not_not_add, sub_not_zero]
    · exact add_not_zero d
  | second y =>
    have raw : (place (.second y)).comp.value d a cell = ~~~0 &&& y.pick a cell ∧
        (not (.second y)).comp.value d a cell = ~~~(~~~0 &&& y.pick a cell) ∧
        (neg (.second y)).comp.value d a cell = ~~~(~~~0 + y.pick a cell) ∧
        (succ (.second y)).comp.value d a cell = ~~~(~~~0 + ~~~(y.pick a cell)) ∧
        (pred (.second y)).comp.value d a cell = ~~~0 + y.pick a cell := by
      cases y <;> exact ⟨rfl, rfl, rfl, rfl, rfl⟩
    obtain ⟨place, not, neg, succ, pred⟩ := raw
    rw [place, not, neg, succ, pred]
    refine ⟨?_, ?_, ?_, ?_, ?_⟩
    · simp [Operand.pick]
    · simp [Operand.pick]
    · rw [not_not_add, UInt16.zero_sub, Operand.pick]
    · rw [not_add_not, sub_not_zero, Operand.pick]
    · rw [UInt16.add_comm, add_not_zero, Operand.pick]

theorem value_of_places (y : Second) :
    (plus y).comp.value d a cell = d + y.pick a cell ∧
      (minus y).comp.value d a cell = d - y.pick a cell ∧
      (less y).comp.value d a cell = y.pick a cell - d ∧
      (and y).comp.value d a cell = d &&& y.pick a cell ∧
      (or y).comp.value d a cell = d ||| y.pick a cell := by
  have raw : (plus y).comp.value d a cell = d + y.pick a cell ∧
      (minus y).comp.value d a cell = ~~~(~~~d + y.pick a cell) ∧
      (less y).comp.value d a cell = ~~~(d + ~~~(y.pick a cell)) ∧
      (and y).comp.value d a cell = d &&& y.pick a cell ∧
      (or y).comp.value d a cell = ~~~(~~~d &&& ~~~(y.pick a cell)) := by
    cases y <;> exact ⟨rfl, rfl, rfl, rfl, rfl⟩
  obtain ⟨plus, minus, less, and, or⟩ := raw
  rw [plus, minus, less, and, or, not_not_add, not_add_not, not_not_and_not]
  exact ⟨rfl, rfl, rfl, rfl, rfl⟩

/-- The control lines compute the expression. -/
theorem value_comp (e : Expression) :
    (e.comp.value d a cell).toInt16 = e.eval d.toInt16 a.toInt16 cell.toInt16 := by
  cases e with
  | zero => rfl
  | one =>
    show (~~~(~~~0 + ~~~0) : UInt16).toInt16 = 1
    decide
  | minusOne =>
    show (~~~0 + 0 : UInt16).toInt16 = -1
    decide
  | place x | not x | neg x | succ x | pred x =>
    obtain ⟨place, not, neg, succ, pred⟩ := value_of_place d a cell x
    simp only [place, not, neg, succ, pred, eval, UInt16.toInt16_not, UInt16.toInt16_neg,
      UInt16.toInt16_add, UInt16.toInt16_sub, UInt16.toInt16_ofNat, Operand.map_pick UInt16.toInt16]
  | plus y | minus y | less y | and y | or y =>
    obtain ⟨plus, minus, less, and, or⟩ := value_of_places d a cell y
    simp only [plus, minus, less, and, or, eval, UInt16.toInt16_add, UInt16.toInt16_sub,
      UInt16.toInt16_and, UInt16.toInt16_or, Second.map_pick UInt16.toInt16]

end Expression

end HackPlatform
