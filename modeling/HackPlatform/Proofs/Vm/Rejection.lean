import HackPlatform.Proofs.Asm.Phrase
import HackPlatform.Proofs.Vm.Sites

/-!
# Invalid commands

Which commands are invalid in a scope, said with numbers and names instead of by the checks: an index
beyond its segment, a pop into a constant, a name that cannot stand in a program, too many local
variables or arguments. In a scope whose function has a name of the source, these are the commands
that have no block.
-/

namespace HackPlatform.Vm

open Asm (NameText isName isNameChar)

/-- The largest index of a segment. -/
def Segment.largest : Segment → Nat
  | constant | locals | argument | this | that => 32767
  | static => 239
  | temp => 7
  | pointer => 1

/-- An index is beyond its segment, or names a static cell that no assembly name stands for. -/
def Segment.Lacks (s : Scope) (segment : Segment) (index : UInt16) : Prop :=
  segment.largest < index.toNat ∨
    segment = static ∧ ¬NameText (s.unit ++ "." ++ Text.decimal index).toList

/-- A name that no function and no label of the source may have. -/
def Forbidden (name : String) : Prop :=
  ¬NameText name.toList ∨ '$' ∈ name.toList

/-- A command is invalid in a scope. -/
def Command.Invalid (s : Scope) : Command → Prop
  | .operate _ | .ret => False
  | .push segment index => segment.Lacks s index
  | .pop segment index => segment = .constant ∨ segment.Lacks s index
  | .label name | .goto name | .ifGoto name =>
    Forbidden name ∨ s.function = none ∧ ¬NameText ("$" ++ s.unit ++ "$" ++ name).toList
  | .function name localCount => Forbidden name ∨ 32767 < localCount.toNat
  | .call name argCount => Forbidden name ∨ 32762 < argCount.toNat

theorem forbidden_iff {name : String} : Forbidden name ↔ ¬UserName name := by
  rw [Forbidden, UserName, Asm.isName_iff_nameText]
  by_cases named : NameText name.toList
  · simp [named]
  · simp [named]

theorem Segment.lacks_iff {s : Scope} {segment : Segment} {index : UInt16} :
    segment.Lacks s index ↔ ¬segment.Allows s index := by
  have beyond (bound : UInt16) (same : bound.toNat = segment.largest) :
      segment.largest < index.toNat ↔ ¬index ≤ bound := by
    rw [UInt16.le_iff_toNat_le, same, Nat.not_le]
  rw [Lacks, ← Asm.isName_iff_nameText]
  cases segment with
  | static =>
    rw [beyond (staticSize - 1) (by decide)]
    simp only [Allows, true_and, Decidable.not_and_iff_not_or_not]
    exact Iff.rfl
  | temp =>
    rw [beyond (tempSize - 1) rfl]
    simp [Allows]
  | pointer =>
    rw [beyond 1 rfl]
    simp [Allows]
  | _ =>
    rw [beyond maxAddress rfl]
    simp [Allows]

/-- Within a function, a label of the source always has a name. -/
theorem isName_inFunction {f name : String} (hf : UserName f) (hn : UserName name) :
    isName (Symbol.inFunction f name).text.toList = true := by
  obtain ⟨chars, c, first, other⟩ := Asm.isName_iff.1 hf.1
  rw [Asm.isName_iff, Symbol.toList_inFunction, List.forall_mem_append, List.forall_mem_cons]
  refine ⟨⟨chars, by decide, (Asm.isName_iff.1 hn.1).1⟩, c, ?_, other⟩
  rw [List.head?_append, first]
  rfl

theorem labelSymbol_unnamed_iff {s : Scope} {name : String} (sound : s.Sound) (user : UserName name) :
    ¬isName (s.labelSymbol name).text.toList = true ↔
      s.function = none ∧ ¬NameText ("$" ++ s.unit ++ "$" ++ name).toList := by
  rw [← Asm.isName_iff_nameText]
  unfold Scope.labelSymbol
  split
  · next f there =>
    simp [there, isName_inFunction (sound f there) user]
  · next there =>
    simp only [there, true_and]
    rfl

/-- The invalid commands are those that do not pass the checks. -/
theorem Command.invalid_iff {s : Scope} {c : Command} (sound : s.Sound) :
    c.Invalid s ↔ ¬c.Allowed s := by
  have label (name : String) :
      Forbidden name ∨ s.function = none ∧ ¬NameText ("$" ++ s.unit ++ "$" ++ name).toList ↔
        ¬(UserName name ∧ isName (s.labelSymbol name).text.toList = true) := by
    by_cases user : UserName name
    · simp only [forbidden_iff, user, not_true_eq_false, false_or, true_and]
      exact (labelSymbol_unnamed_iff sound user).symm
    · simp only [forbidden_iff, user, not_false_eq_true, true_or, false_and]
  cases c with
  | operate op => simp [Invalid, Allowed]
  | push segment index => exact Segment.lacks_iff
  | pop segment index =>
    rw [Invalid, Allowed, Segment.lacks_iff, not_and_or, not_ne_iff]
  | label name => exact label name
  | goto name => exact label name
  | ifGoto name => exact label name
  | function name localCount =>
    rw [Invalid, Allowed, forbidden_iff, not_and_or, UInt16.le_iff_toNat_le, Nat.not_le]
    rfl
  | call name argCount =>
    have room : argCount.toNat + frameSize.toNat ≤ maxAddress.toNat ↔ argCount.toNat ≤ 32762 := by
      rw [show frameSize.toNat = 5 from rfl, show maxAddress.toNat = 32767 from rfl]
      omega
    rw [Invalid, Allowed, forbidden_iff, not_and_or, room, Nat.not_le]
  | ret => simp [Invalid, Allowed]

/-! ## Blocks -/

theorem checkIndex_of_le {segment : Segment} {index largest : UInt16} (h : index ≤ largest) :
    checkIndex segment index largest = .ok () :=
  if_neg (UInt16.not_lt.2 h)

theorem checkName_of_isName {text : String} (h : isName text.toList = true) :
    checkName text = .ok () :=
  if_pos h

theorem checkUserName_of_userName {name : String} (h : UserName name) :
    checkUserName name = .ok () := by
  rw [checkUserName, checkName_of_isName h.1]
  exact if_neg fun mem => h.2 (List.contains_iff_mem.1 mem)

theorem userLabel_of_userName {s : Scope} {name : String} (user : UserName name)
    (named : isName (s.labelSymbol name).text.toList = true) :
    s.userLabel name = .ok (s.labelSymbol name) := by
  rw [Scope.userLabel, checkUserName_of_userName user, checkName_of_isName named]
  rfl

theorem Segment.place_of_allows {s : Scope} {segment : Segment} {index : UInt16}
    (h : segment.Allows s index) : segment.place s index = .ok (segment.placeOf s index) := by
  cases segment with
  | constant => rfl
  | static =>
    rw [place, checkIndex_of_le h.1, checkName_of_isName h.2]
    rfl
  | _ =>
    rw [place, checkIndex_of_le h]
    rfl

/-- A command that passes the checks has a block. -/
theorem exists_block {s : Scope} {c : Command} (h : c.Allowed s) :
    ∃ effects, c.block s = .ok effects := by
  cases c with
  | operate op => exact ⟨_, rfl⟩
  | push segment index =>
    rw [Command.block, pushBlock, Segment.place_of_allows h]
    cases segment with
    | constant =>
      have low : checkIndex .constant index maxAddress = .ok () := checkIndex_of_le h
      refine ⟨emitAll (Code.push (.value index)), ?_⟩
      simp only [Segment.placeOf, bind, Except.bind, low]
      rfl
    | _ => exact ⟨_, rfl⟩
  | pop segment index =>
    rw [Command.block, popBlock, Segment.place_of_allows h.2]
    cases segment with
    | constant => exact absurd rfl h.1
    | _ => exact ⟨_, rfl⟩
  | label name | goto name | ifGoto name =>
    rw [Command.block, userLabel_of_userName h.1 h.2]
    exact ⟨_, rfl⟩
  | function name localCount =>
    rw [Command.block, functionBlock, checkUserName_of_userName h.1, checkIndex_of_le h.2]
    by_cases none : localCount = 0
    · exact ⟨_, if_pos none⟩
    · exact ⟨_, if_neg none⟩
  | call name argCount =>
    rw [Command.block, callBlock, checkUserName_of_userName h.1]
    exact ⟨_, if_neg (Nat.not_lt.2 h.2)⟩
  | ret => exact ⟨_, rfl⟩

/-- The commands without a block are the invalid ones. -/
theorem block_eq_error_iff {s : Scope} {c : Command} (sound : s.Sound) :
    (∃ r, c.block s = .error r) ↔ c.Invalid s := by
  rw [Command.invalid_iff sound]
  constructor
  · rintro ⟨r, refused⟩ allowed
    obtain ⟨effects, block⟩ := exists_block allowed
    cases refused.symm.trans block
  · intro refused
    cases block : c.block s with
    | error r => exact ⟨r, rfl⟩
    | ok effects => exact absurd (block_accepted block).allowed refused

end HackPlatform.Vm
