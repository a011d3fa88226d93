import HackPlatform.Vm.Block

/-!
# Accepted commands

A command that has a block passed all checks. What they were, which statements the block emits and
which scope it leaves is said here once for every command, so that the checks need not be taken
apart again.
-/

namespace HackPlatform.Vm

open Asm (Statement isName)

/-- The test on an index was passed. -/
theorem checkIndex_eq_ok {segment : Segment} {index largest : UInt16} {u : Unit}
    (h : checkIndex segment index largest = .ok u) : index ≤ largest := by
  unfold checkIndex at h
  split at h
  · cases h
  · next low => exact UInt16.not_lt.1 low

theorem checkName_eq_ok {text : String} {u : Unit} (h : checkName text = .ok u) :
    isName text.toList = true := by
  unfold checkName at h
  split at h
  · assumption
  · cases h

/-- A name of the source that may stand in a program. -/
def UserName (name : String) : Prop :=
  isName name.toList = true ∧ '$' ∉ name.toList

/-- Two checks in a row were both passed. -/
theorem bind_eq_ok {ε α β : Type} {x : Except ε α} {f : α → Except ε β} {b : β}
    (h : (x >>= f) = .ok b) : ∃ a, x = .ok a ∧ f a = .ok b := by
  cases x with
  | error e => cases h
  | ok a => exact ⟨a, rfl, h⟩

theorem checkUserName_eq_ok {name : String} {u : Unit} (h : checkUserName name = .ok u) :
    UserName name := by
  obtain ⟨_, named, h⟩ := bind_eq_ok h
  refine ⟨checkName_eq_ok named, fun mem => ?_⟩
  rw [if_pos (List.contains_iff_mem.2 mem)] at h
  cases h

theorem userLabel_eq_ok {s : Scope} {name : String} {target : Symbol}
    (h : s.userLabel name = .ok target) :
    target = s.labelSymbol name ∧ UserName name ∧ isName (s.labelSymbol name).text.toList = true := by
  obtain ⟨_, user, h⟩ := bind_eq_ok h
  obtain ⟨_, named, h⟩ := bind_eq_ok h
  cases h
  exact ⟨rfl, checkUserName_eq_ok user, checkName_eq_ok named⟩

namespace Segment

/-- The place of an index, without the checks. -/
def placeOf (s : Scope) (index : UInt16) : Segment → Place
  | constant => .value index
  | locals => .indexed .lcl index
  | argument => .indexed .arg index
  | this => .indexed .this index
  | that => .indexed .that index
  | static => .fixed (.reference (.static s.unit index))
  | temp => .fixed (.load (tempBase + index))
  | pointer => .fixed (.reference (.register (if index = 0 then .this else .that)))

/-- An index has a place in a segment. -/
def Allows (s : Scope) (index : UInt16) : Segment → Prop
  | constant | locals | argument | this | that => index ≤ maxAddress
  | static => index ≤ staticSize - 1 ∧ isName (Symbol.static s.unit index).text.toList = true
  | temp => index ≤ tempSize - 1
  | pointer => index ≤ 1

/-- A place was found for an index that is allowed; the constant segment leaves the check to the
push. -/
theorem place_eq_ok {s : Scope} {segment : Segment} {index : UInt16} {place : Place}
    (h : segment.place s index = .ok place) :
    place = segment.placeOf s index ∧ (segment ≠ .constant → segment.Allows s index) := by
  cases segment with
  | constant =>
    cases h
    exact ⟨rfl, fun no => absurd rfl no⟩
  | locals | argument | this | that | temp | pointer =>
    obtain ⟨_, low, h⟩ := bind_eq_ok h
    cases h
    exact ⟨rfl, fun _ => checkIndex_eq_ok low⟩
  | static =>
    obtain ⟨_, low, h⟩ := bind_eq_ok h
    obtain ⟨_, named, h⟩ := bind_eq_ok h
    cases h
    exact ⟨rfl, fun _ => ⟨checkIndex_eq_ok low, checkName_eq_ok named⟩⟩

end Segment

/-! ## Commands -/

/-- The statements that effects emit. -/
def emitted (effects : List Effect) : List (Statement Symbol) :=
  effects.filterMap fun
    | .emit s => some s
    | _ => none

@[simp] theorem emitted_emitAll (code : List (Statement Symbol)) : emitted (emitAll code) = code := by
  rw [emitted, emitAll, List.filterMap_map]
  exact List.filterMap_some

/-- Emitting leaves the scope alone. -/
@[simp] theorem foldl_after_emitAll (s : Scope) (code : List (Statement Symbol)) :
    (emitAll code).foldl Scope.after s = s := by
  induction code with
  | nil => rfl
  | cons _ _ ih => exact ih

/-- The scope behind a label that was made. -/
def Scope.tick (s : Scope) : Scope :=
  { s with labelCount := s.labelCount + 1 }

/-- The scope that a command leaves. -/
def Scope.next (s : Scope) : Command → Scope
  | .operate (.compare _) => s.tick
  | .function f localCount =>
    if localCount = 0 then { s with function := some f }
    else { s with function := some f, labelCount := s.labelCount + 1 }
  | .call .. => s.tick
  | _ => s

/-- The command makes labels: a comparison, a call or a function that clears local variables. -/
def Command.makesLabels : Command → Bool
  | operate op => op.isRelational
  | call .. => true
  | function _ localCount => localCount != 0
  | _ => false

theorem Scope.labelCount_next (s : Scope) (c : Command) :
    (s.next c).labelCount = s.labelCount + if c.makesLabels then 1 else 0 := by
  cases c with
  | operate op => cases op <;> rfl
  | function name localCount =>
    by_cases none : localCount = 0
    · simp [Scope.next, Command.makesLabels, none]
    · simp [Scope.next, Command.makesLabels, none]
  | _ => rfl

/-- The statements of an operator. -/
def Operator.code (number : Nat) : Operator → List (Statement Symbol)
  | .add => Code.binary .dPlusM
  | .sub => Code.binary .mMinusD
  | .and => Code.binary .dAndM
  | .or => Code.binary .dOrM
  | .neg => Code.unary .negM
  | .not => Code.unary .notM
  | .compare r => Code.compare r number

/-- The statements that pop into a place. -/
def Place.popCode : Place → List (Statement Symbol)
  | .value _ => []
  | .indexed base offset => Code.popIndexed base offset
  | .fixed load => Code.popFixed load

/-- The statements of a command in a scope, without the checks. -/
def Command.code (s : Scope) : Command → List (Statement Symbol)
  | .operate op => op.code s.labelCount
  | .push segment index => Code.push (segment.placeOf s index)
  | .pop segment index => (segment.placeOf s index).popCode
  | .label name => [.label (s.labelSymbol name)]
  | .goto name => [.reference (s.labelSymbol name), .branch .zero .always]
  | .ifGoto name => Code.popD ++ [.reference (s.labelSymbol name), .branch .d .ne]
  | .function name localCount =>
    .label (.function name) :: if localCount = 0 then [] else Code.clear localCount s.labelCount
  | .call name argCount => Code.call name (argCount + frameSize) s.labelCount
  | .ret => Code.ret

/-- What the checks on a command ask for. -/
def Command.Allowed (s : Scope) : Command → Prop
  | .operate _ | .ret => True
  | .push segment index => segment.Allows s index
  | .pop segment index => segment ≠ .constant ∧ segment.Allows s index
  | .label name | .goto name | .ifGoto name =>
    UserName name ∧ isName (s.labelSymbol name).text.toList = true
  | .function name localCount => UserName name ∧ localCount ≤ maxAddress
  | .call name argCount => UserName name ∧ argCount.toNat + frameSize.toNat ≤ maxAddress.toNat

/-- The block of an accepted command. -/
structure Accepted (s : Scope) (c : Command) (effects : List Effect) : Prop where
  allowed : c.Allowed s
  code : emitted effects = c.code s
  next : effects.foldl Scope.after s = s.next c

theorem pushBlock_accepted {s : Scope} {segment : Segment} {index : UInt16} {effects : List Effect}
    (h : pushBlock s segment index = .ok effects) : Accepted s (.push segment index) effects := by
  obtain ⟨place, found, h⟩ := bind_eq_ok h
  obtain ⟨rfl, allowed⟩ := Segment.place_eq_ok found
  cases segment with
  | constant =>
    obtain ⟨_, low, h⟩ := bind_eq_ok h
    cases h
    exact ⟨checkIndex_eq_ok low, emitted_emitAll _, foldl_after_emitAll ..⟩
  | _ =>
    cases h
    exact ⟨allowed (by decide), emitted_emitAll _, foldl_after_emitAll ..⟩

theorem popBlock_accepted {s : Scope} {segment : Segment} {index : UInt16} {effects : List Effect}
    (h : popBlock s segment index = .ok effects) : Accepted s (.pop segment index) effects := by
  obtain ⟨place, found, h⟩ := bind_eq_ok h
  obtain ⟨rfl, allowed⟩ := Segment.place_eq_ok found
  cases segment with
  | constant => cases h
  | _ =>
    cases h
    exact ⟨⟨by decide, allowed (by decide)⟩, emitted_emitAll _, foldl_after_emitAll ..⟩

theorem functionBlock_accepted {s : Scope} {name : String} {localCount : UInt16}
    {effects : List Effect} (h : functionBlock s name localCount = .ok effects) :
    Accepted s (.function name localCount) effects := by
  obtain ⟨_, user, h⟩ := bind_eq_ok h
  obtain ⟨_, low, h⟩ := bind_eq_ok h
  have allowed : Command.Allowed s (.function name localCount) :=
    ⟨checkUserName_eq_ok user, checkIndex_eq_ok low⟩
  by_cases none : localCount = 0
  · subst none
    cases h
    exact ⟨allowed, rfl, rfl⟩
  · simp only [if_neg none] at h
    cases h
    refine ⟨allowed, ?_, ?_⟩
    · simp only [Command.code, if_neg none]
      exact congrArg (Statement.label (.function name) :: ·) (emitted_emitAll _)
    · simp only [Scope.next, if_neg none]
      exact foldl_after_emitAll ..

theorem callBlock_accepted {s : Scope} {name : String} {argCount : UInt16} {effects : List Effect}
    (h : callBlock s name argCount = .ok effects) : Accepted s (.call name argCount) effects := by
  obtain ⟨_, user, h⟩ := bind_eq_ok h
  split at h
  · cases h
  · next fits =>
    cases h
    exact ⟨⟨checkUserName_eq_ok user, Nat.le_of_not_lt fits⟩, emitted_emitAll _,
      foldl_after_emitAll ..⟩

/-- Every block is that of an accepted command. -/
theorem block_accepted {s : Scope} {c : Command} {effects : List Effect}
    (h : c.block s = .ok effects) : Accepted s c effects := by
  cases c with
  | operate op =>
    cases h
    cases op with
    | compare r => exact ⟨trivial, emitted_emitAll _, foldl_after_emitAll ..⟩
    | _ => exact ⟨trivial, emitted_emitAll _, foldl_after_emitAll ..⟩
  | push segment index => exact pushBlock_accepted h
  | pop segment index => exact popBlock_accepted h
  | function name localCount => exact functionBlock_accepted h
  | call name argCount => exact callBlock_accepted h
  | ret =>
    cases h
    exact ⟨trivial, emitted_emitAll _, foldl_after_emitAll ..⟩
  | _ =>
    obtain ⟨target, user, h⟩ := bind_eq_ok h
    cases h
    obtain ⟨rfl, allowed⟩ := userLabel_eq_ok user
    exact ⟨allowed, emitted_emitAll _, foldl_after_emitAll ..⟩

end HackPlatform.Vm
