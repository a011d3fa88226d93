import HackPlatform.Proofs.Vm.Memory
import HackPlatform.Proofs.Vm.Outline

/-!
# The stack machine

The meaning of the commands of an outline, without a word of their code. The machine stands in
front of a command and has the full data memory; registers, stack, frames and segments all lie in
it and may overlap, so every command is an operation on memory. Two things are taken from outside:
the addresses that calls save on the stack, and the cells of static variables.
-/

namespace HackPlatform

namespace Ram

/-- The topmost word is replaced. -/
def unary (ram : Ram) (f : UInt16 → UInt16) : Ram :=
  ram.drop.push (f ram.top)

/-- The two topmost words are replaced by one, which is computed with the topmost as the second
operand. -/
def binary (ram : Ram) (f : UInt16 → UInt16 → UInt16) : Ram :=
  ram.drop.drop.push (f ram.drop.top ram.top)

end Ram

namespace Vm

/-- What the stack machine takes from outside: the address that stands for the place in front of a
command, and the cell of a static variable. -/
structure Layout where
  start : Nat → UInt16
  static : String → UInt16 → UInt16

/-- Whether a relation holds of two words, by the sign of their difference. -/
def Relation.holds (difference : UInt16) : Relation → Bool
  | .eq => difference = 0
  | .gt => 0 < difference.toInt16
  | .lt => difference.toInt16 < 0

/-- What an operator makes of memory. -/
def Operator.effect (ram : Ram) : Operator → Ram
  | .add => ram.binary fun x y => x + y
  | .sub => ram.binary fun x y => x - y
  | .and => ram.binary fun x y => x &&& y
  | .or => ram.binary fun x y => x ||| y
  | .neg => ram.unary fun y => -y
  | .not => ram.unary fun y => ~~~y
  | .compare r => ram.binary fun x y => if r.holds (x - y) then 0xFFFF else 0

namespace Segment

/-- The register that holds the address of a segment's first cell, for the segments that move. -/
def base? : Segment → Option Register
  | locals => some .lcl
  | argument => some .arg
  | this => some .this
  | that => some .that
  | _ => none

/-- The cell of an index. A constant has none. -/
def cell? (l : Layout) (unit : String) (ram : Ram) (index : UInt16) : Segment → Option UInt16
  | constant => none
  | locals => some (ram.get .lcl + index)
  | argument => some (ram.get .arg + index)
  | this => some (ram.get .this + index)
  | that => some (ram.get .that + index)
  | static => some (l.static unit index)
  | temp => some (5 + index)
  | pointer => some (if index = 0 then Register.this.cell else Register.that.cell)

/-- The word at an index. A constant is its own index. -/
def load (l : Layout) (unit : String) (ram : Ram) (index : UInt16) (segment : Segment) : UInt16 :=
  match segment.cell? l unit ram index with
  | none => index
  | some cell => ram.peek cell

/-- Memory with a word stored at an index. -/
def store (l : Layout) (unit : String) (ram : Ram) (index w : UInt16) (segment : Segment) : Ram :=
  match segment.cell? l unit ram index with
  | none => ram
  | some cell => ram.poke cell w

/-- The cell of an index, if the segment is one that moves. -/
def movingCell (ram : Ram) (index : UInt16) (segment : Segment) : List UInt16 :=
  segment.base?.toList.map fun r => ram.get r + index

end Segment

instance (s t : Scope) : Decidable (s.SameLabels t) :=
  inferInstanceAs (Decidable (_ ∧ (_ → _)))

/-- The place of a label, for a jump from a scope. -/
def labelPlace? (sites : List Site) (scope : Scope) (name : String) : Option Nat :=
  sites.findIdx? fun t => t.task = .command (.label name) ∧ scope.SameLabels t.scope

/-- A task is the start of a function. -/
def Task.enters (name : String) : Task → Bool
  | .command (.function f _) => f = name
  | _ => false

/-- The place of a function. -/
def functionPlace? (sites : List Site) (name : String) : Option Nat :=
  sites.findIdx? fun t => t.task.enters name

/-- The first place that an address stands for. Of the places with one address it is the one that a
call returns to, because a call has code. -/
def returnPlace? (l : Layout) (sites : List Site) (back : UInt16) : Option Nat :=
  (List.range (sites.length + 1)).find? fun k => l.start k = back

/-! ## Commands -/

namespace Command

/-- What a command makes of memory, when `back` is the address behind it. -/
def effect (l : Layout) (unit : String) (back : UInt16) (ram : Ram) : Command → Ram
  | operate op => op.effect ram
  | push segment index => ram.push (segment.load l unit ram index)
  | pop segment index => segment.store l unit ram.drop index ram.top
  | label _ | goto _ => ram
  | ifGoto _ => ram.drop
  | function _ localCount => ram.clear localCount.toNat
  | call _ argCount => ram.enter back (argCount + frameSize)
  | ret => ram.leave (ram.get .lcl)

/-- The place that comes after a command at `k`. -/
def next? (l : Layout) (sites : List Site) (k : Nat) (scope : Scope) (ram : Ram) :
    Command → Option Nat
  | goto name => labelPlace? sites scope name
  | ifGoto name => if ram.top = 0 then some (k + 1) else labelPlace? sites scope name
  | call name _ => functionPlace? sites name
  | ret => returnPlace? l sites (ram.peek (ram.get .lcl - frameSize))
  | _ => some (k + 1)

/-- The cells of the stack, of the frame and of a moving segment that a command uses. -/
def cells (ram : Ram) : Command → List UInt16
  | operate op =>
    if op.arity = 1 then [ram.get .sp - 1] else [ram.get .sp - 1, ram.get .sp - 2]
  | push segment index => ram.get .sp :: segment.movingCell ram index
  | pop segment index => (ram.get .sp - 1) :: segment.movingCell ram index
  | label _ | goto _ => []
  | ifGoto _ => [ram.get .sp - 1]
  | function _ localCount => (List.range localCount.toNat).map fun i => ram.get .sp + i.toUInt16
  | call .. => (List.range 5).map fun i => ram.get .sp + i.toUInt16
  | ret =>
    [ram.get .sp - 1, ram.get .arg] ++ [1, 2, 3, 4, 5].map fun i => ram.get .lcl - i

end Command

namespace Site

def effect (l : Layout) (back : UInt16) (ram : Ram) (s : Site) : Ram :=
  match s.task with
  | .setStack base => ram.set .sp base
  | .command c => c.effect l s.scope.unit back ram

def next? (l : Layout) (sites : List Site) (k : Nat) (ram : Ram) (s : Site) : Option Nat :=
  match s.task with
  | .setStack _ => some (k + 1)
  | .command c => c.next? l sites k s.scope ram

def cells (ram : Ram) (s : Site) : List UInt16 :=
  match s.task with
  | .setStack _ => []
  | .command c => c.cells ram

end Site

/-- The place of the next command, and data memory. -/
structure State where
  next : Nat
  ram : Ram

/-- The state after the next command, if there is one and it leads to a place. -/
def step (l : Layout) (sites : List Site) (s : State) : Option State := do
  let site ← sites[s.next]?
  let next ← site.next? l sites s.next s.ram
  return ⟨next, site.effect l (l.start (s.next + 1)) s.ram⟩

/-- The next command uses no cell of the stack, of the frame or of a moving segment that lies
outside data memory or among its first 16 words. -/
def State.Safe (sites : List Site) (s : State) : Prop :=
  ∀ site, sites[s.next]? = some site → ∀ cell ∈ site.cells s.ram, 16 ≤ cell ∧ cell < 32768

/-- A run of safe steps. -/
inductive Reaches (l : Layout) (sites : List Site) : State → State → Prop
  | refl (s : State) : Reaches l sites s s
  | next {s s' s'' : State} : s.Safe sites → step l sites s = some s' → Reaches l sites s' s'' →
    Reaches l sites s s''

/-- What a step is made of. -/
theorem step_eq_some {l : Layout} {sites : List Site} {s s' : State} :
    step l sites s = some s' ↔ ∃ site, sites[s.next]? = some site ∧
      site.next? l sites s.next s.ram = some s'.next ∧
      site.effect l (l.start (s.next + 1)) s.ram = s'.ram := by
  obtain ⟨next, ram⟩ := s'
  simp only [step, bind, Option.bind_eq_some_iff, pure, Option.some.injEq, State.mk.injEq]
  constructor
  · rintro ⟨site, here, k, there, rfl, rfl⟩
    exact ⟨site, here, there, rfl⟩
  · rintro ⟨site, here, there, rfl⟩
    exact ⟨site, here, next, there, rfl, rfl⟩

end Vm

end HackPlatform
