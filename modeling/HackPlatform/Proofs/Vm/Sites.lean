import HackPlatform.Proofs.Asm.Reading
import HackPlatform.Proofs.Vm.Names
import HackPlatform.Proofs.Vm.Outline

/-!
# The names of a block

Which names the block of a command holds, and which labels it defines: those of the source that its
command has, and made labels with the number of labels made before it. Along an outline these
numbers grow, so no two blocks make the same label.
-/

namespace HackPlatform.Vm

open Asm (Statement isName)

/-- The label that a statement defines. -/
def labelOf? : Statement Symbol → Option Symbol
  | .label a => some a
  | _ => none

/-- The labels that the block of a command defines, in order. -/
def Command.labels (s : Scope) : Command → List Symbol
  | .operate (.compare r) => [.made (.holds r) s.labelCount, .made (.done r) s.labelCount]
  | .label name => [s.labelSymbol name]
  | .function name localCount =>
    .function name :: if localCount = 0 then [] else [.made .clear s.labelCount]
  | .call name _ => [.made (.resume name) s.labelCount]
  | _ => []

theorem Command.code_labels (s : Scope) (c : Command) :
    (c.code s).filterMap labelOf? = c.labels s := by
  cases c with
  | operate op => cases op <;> rfl
  | push segment index => cases segment <;> rfl
  | pop segment index => cases segment <;> rfl
  | function name localCount =>
    by_cases none : localCount = 0
    · simp [code, labels, none, labelOf?]
    · simp only [code, labels, if_neg none]
      rfl
  | _ => rfl

/-- A block defines no label twice. -/
theorem Command.labels_nodup (s : Scope) (c : Command) : (c.labels s).Nodup := by
  cases c with
  | operate op => cases op <;> simp [labels]
  | function name localCount => by_cases none : localCount = 0 <;> simp [labels, none]
  | _ => simp [labels]

/-- A label of a block stands for a function or a label of the source, or was made. -/
theorem Command.mem_labels {s : Scope} {c : Command} {a : Symbol} (h : a ∈ c.labels s) :
    (∃ name n, c = .function name n ∧ a = .function name) ∨
      (∃ name, c = .label name ∧ a = s.labelSymbol name) ∨ ∃ mark number, a = .made mark number := by
  cases c with
  | operate op =>
    cases op with
    | compare r =>
      simp only [labels, List.mem_cons, List.not_mem_nil, or_false] at h
      obtain rfl | rfl := h
      · exact .inr (.inr ⟨_, _, rfl⟩)
      · exact .inr (.inr ⟨_, _, rfl⟩)
    | _ => cases h
  | function name localCount =>
    obtain rfl | h := List.mem_cons.1 h
    · exact .inl ⟨name, localCount, rfl, rfl⟩
    · split at h
      · cases h
      · exact .inr (.inr ⟨_, _, List.mem_singleton.1 h⟩)
  | call name argCount =>
    simp only [labels, List.mem_singleton] at h
    exact .inr (.inr ⟨_, _, h⟩)
  | label name =>
    simp only [labels, List.mem_singleton] at h
    exact .inr (.inl ⟨name, rfl, h⟩)
  | _ => cases h

/-- A made label has the number of labels made before it, and is counted. -/
theorem Command.made_mem_labels {s : Scope} {c : Command} {mark : Mark} {number : Nat}
    (h : .made mark number ∈ c.labels s) :
    number = s.labelCount ∧ s.labelCount < (s.next c).labelCount ∧ (c.Allowed s → mark.Sound) := by
  cases c with
  | operate op =>
    cases op with
    | compare r =>
      simp only [labels, List.mem_cons, Symbol.made.injEq, List.not_mem_nil, or_false] at h
      obtain ⟨rfl, rfl⟩ | ⟨rfl, rfl⟩ := h
      · exact ⟨rfl, Nat.lt_succ_self _, fun _ => trivial⟩
      · exact ⟨rfl, Nat.lt_succ_self _, fun _ => trivial⟩
    | _ => cases h
  | function name localCount =>
    by_cases none : localCount = 0
    · simp [labels, none] at h
    · simp only [labels, if_neg none, List.mem_cons, reduceCtorEq, Symbol.made.injEq,
        List.not_mem_nil, or_false, false_or] at h
      obtain ⟨rfl, rfl⟩ := h
      refine ⟨rfl, ?_, fun _ => trivial⟩
      rw [Scope.next, if_neg none]
      exact Nat.lt_succ_self _
  | call name argCount =>
    simp only [labels, List.mem_singleton, Symbol.made.injEq] at h
    obtain ⟨rfl, rfl⟩ := h
    exact ⟨rfl, Nat.lt_succ_self _, fun allowed => allowed.1⟩
  | label name =>
    simp only [labels, List.mem_singleton, Scope.labelSymbol] at h
    split at h <;> cases h
  | _ => cases h

/-- The name that a statement holds. -/
def nameOf? : Statement Symbol → Option Symbol
  | .label a => some a
  | .reference a => some a
  | .instr _ => none

/-- The names that the block of a command may hold. -/
def Command.Names (s : Scope) (c : Command) : Symbol → Prop
  | .register _ => True
  | .static unit index => unit = s.unit ∧ (c = .push .static index ∨ c = .pop .static index)
  | .function name => ∃ n, c = .function name n ∨ c = .call name n
  | .made mark number => .made mark number ∈ c.labels s
  | a => ∃ name, a = s.labelSymbol name ∧ (c = .label name ∨ c = .goto name ∨ c = .ifGoto name)

theorem labelSymbol_names {s : Scope} {c : Command} {name : String}
    (h : c = .label name ∨ c = .goto name ∨ c = .ifGoto name) : c.Names s (s.labelSymbol name) := by
  unfold Scope.labelSymbol
  split
  · next f there =>
    refine ⟨name, ?_, h⟩
    rw [Scope.labelSymbol, there]
  · next there =>
    refine ⟨name, ?_, h⟩
    rw [Scope.labelSymbol, there]

/-- A statement holds only some names, loads only some words, and computes what has a word. -/
def Within (N : Symbol → Prop) (L : UInt16 → Prop) : Statement Symbol → Prop
  | .label a | .reference a => N a
  | .instr (.address v) => L v
  | .instr (.compute _ comp _) => comp.isNamed = true

section Pieces

variable {N : Symbol → Prop} {L : UInt16 → Prop} (registers : ∀ r, N (.register r))

include registers

theorem Code.pushD_within : ∀ st ∈ pushD, Within N L st := by
  simp +decide [pushD, addr, Within, Statement.assign, registers]

theorem Code.popD_within : ∀ st ∈ popD, Within N L st := by
  simp +decide [popD, addr, Within, Statement.assign, registers]

theorem Code.binary_within {comp : Comp} (named : comp.isNamed = true) :
    ∀ st ∈ binary comp, Within N L st := by
  refine List.forall_mem_append.2 ⟨popD_within registers, ?_⟩
  simp +decide [Within, Statement.assign, named]

theorem Code.unary_within {comp : Comp} (named : comp.isNamed = true) :
    ∀ st ∈ unary comp, Within N L st := by
  simp +decide [unary, addr, Within, Statement.assign, registers, named]

theorem Code.compare_within {r : Relation} {n : Nat} (holds : N (.made (.holds r) n))
    (done : N (.made (.done r) n)) : ∀ st ∈ compare r n, Within N L st := by
  refine List.forall_mem_append.2 ⟨popD_within registers, ?_⟩
  simp +decide [addr, Within, Statement.assign, Statement.branch, registers, holds, done]

theorem Code.pushIndexed_within {r : Register} {offset : UInt16} (low : L offset) :
    ∀ st ∈ push (.indexed r offset), Within N L st := by
  refine List.forall_mem_append.2 ⟨?_, pushD_within registers⟩
  simp +decide [addr, Within, Statement.assign, Statement.load, registers, low]

theorem Code.pushValue_within {w : UInt16} (low : L w) :
    ∀ st ∈ push (.value w), Within N L st := by
  refine List.forall_mem_append.2 ⟨?_, pushD_within registers⟩
  simp +decide [Within, Statement.assign, Statement.load, low]

theorem Code.pushFixed_within {load : Statement Symbol} (inside : Within N L load) :
    ∀ st ∈ push (.fixed load), Within N L st := by
  refine List.forall_mem_append.2 ⟨?_, pushD_within registers⟩
  exact List.forall_mem_cons.2 ⟨inside, List.forall_mem_singleton.2 rfl⟩

theorem Code.popIndexed_within {r : Register} {offset : UInt16} (low : L offset) :
    ∀ st ∈ popIndexed r offset, Within N L st := by
  refine List.forall_mem_append.2 ⟨List.forall_mem_append.2 ⟨?_, popD_within registers⟩, ?_⟩
  · simp +decide [addr, Within, Statement.assign, Statement.load, registers, low]
  · simp +decide [addr, Within, Statement.assign, registers]

theorem Code.popFixed_within {load : Statement Symbol} (inside : Within N L load) :
    ∀ st ∈ popFixed load, Within N L st := by
  refine List.forall_mem_append.2 ⟨popD_within registers, ?_⟩
  exact List.forall_mem_cons.2 ⟨inside, List.forall_mem_singleton.2 rfl⟩

theorem Code.clear_within {n : UInt16} {number : Nat} (low : L n) (loop : N (.made .clear number)) :
    ∀ st ∈ clear n number, Within N L st := by
  simp +decide [clear, addr, Within, Statement.assign, Statement.branch, Statement.load, registers,
    low, loop]

theorem Code.save_within (r : Register) : ∀ st ∈ save r, Within N L st := by
  refine List.forall_mem_append.2 ⟨?_, pushD_within registers⟩
  simp +decide [addr, Within, Statement.assign, registers]

theorem Code.call_within {callee : String} {offset : UInt16} {number : Nat} (low : L offset)
    (entry : N (.function callee)) (resume : N (.made (.resume callee) number)) :
    ∀ st ∈ call callee offset number, Within N L st := by
  simp only [call, List.forall_mem_append]
  refine ⟨⟨⟨⟨⟨⟨?_, pushD_within registers⟩, save_within registers _⟩, save_within registers _⟩,
    save_within registers _⟩, save_within registers _⟩, ?_⟩
  · simp +decide [Within, Statement.assign, resume]
  · simp +decide [addr, Within, Statement.assign, Statement.branch, Statement.load, registers, low,
      entry, resume]

theorem Code.restore_within {r : Register} {distance : UInt16} (low : L distance) :
    ∀ st ∈ restore r distance, Within N L st := by
  simp +decide [restore, addr, Within, Statement.assign, Statement.load, registers, low]

theorem Code.ret_within (low : ∀ i ≤ frameSize, L i) : ∀ st ∈ ret, Within N L st := by
  simp only [ret, List.forall_mem_append]
  refine ⟨⟨⟨⟨⟨⟨⟨?_, popD_within registers⟩, ?_⟩, restore_within registers (low 1 (by decide))⟩,
    restore_within registers (low 2 (by decide))⟩, restore_within registers (low 3 (by decide))⟩,
    restore_within registers (low 4 (by decide))⟩, ?_⟩
  · simp +decide [addr, Within, Statement.assign, Statement.load, registers, low]
  · simp +decide [addr, Within, Statement.assign, registers]
  · simp +decide [addr, Within, Statement.assign, Statement.branch, registers]

theorem Code.setStack_within {base : UInt16} (low : L base) :
    ∀ st ∈ setStack base, Within N L st := by
  simp +decide [setStack, addr, Within, Statement.assign, Statement.load, registers, low]

end Pieces

theorem Segment.temp_le {s : Scope} {index : UInt16} (h : temp.Allows s index) :
    tempBase + index ≤ maxAddress := by
  have small : index ≤ 7 := h
  rw [tempBase, maxAddress]
  grind

/-- A block holds the names of its command only, and when it is accepted its instructions have
words. -/
theorem Command.code_within (s : Scope) (c : Command) :
    ∀ st ∈ c.code s, Within (c.Names s) (fun v => c.Allowed s → v ≤ maxAddress) st := by
  have registers : ∀ r, c.Names s (.register r) := fun _ => trivial
  cases c with
  | operate op =>
    cases op with
    | compare r => exact Code.compare_within registers (by simp [Names, labels]) (by simp [Names, labels])
    | neg | not => exact Code.unary_within registers rfl
    | _ => exact Code.binary_within registers rfl
  | push segment index =>
    cases segment with
    | constant => exact Code.pushValue_within registers id
    | locals | argument | this | that => exact Code.pushIndexed_within registers id
    | static => exact Code.pushFixed_within registers ⟨rfl, .inl rfl⟩
    | temp => exact Code.pushFixed_within registers (Segment.temp_le (s := s))
    | pointer => exact Code.pushFixed_within registers trivial
  | pop segment index =>
    cases segment with
    | constant => exact List.forall_mem_nil _
    | locals | argument | this | that => exact Code.popIndexed_within registers And.right
    | static => exact Code.popFixed_within registers ⟨rfl, .inr rfl⟩
    | temp => exact Code.popFixed_within registers fun h => Segment.temp_le h.2
    | pointer => exact Code.popFixed_within registers trivial
  | label name => exact List.forall_mem_singleton.2 (labelSymbol_names (.inl rfl))
  | goto name =>
    have target := labelSymbol_names (s := s) (c := .goto name) (.inr (.inl rfl))
    simp +decide [code, Within, Statement.branch, target]
  | ifGoto name =>
    have target := labelSymbol_names (s := s) (c := .ifGoto name) (.inr (.inr rfl))
    refine List.forall_mem_append.2 ⟨Code.popD_within registers, ?_⟩
    simp +decide [Within, Statement.branch, target]
  | function name localCount =>
    refine List.forall_mem_cons.2 ⟨⟨localCount, .inl rfl⟩, ?_⟩
    by_cases none : localCount = 0
    · rw [if_pos none]
      exact List.forall_mem_nil _
    · rw [if_neg none]
      exact Code.clear_within registers And.right (by simp [Names, labels, none])
  | call name argCount =>
    have bound (h : Command.Allowed s (.call name argCount)) :
        argCount + frameSize ≤ maxAddress := by
      rw [UInt16.le_iff_toNat_le, UInt16.toNat_add]
      exact Nat.le_trans (Nat.mod_le _ _) h.2
    exact Code.call_within registers bound ⟨argCount, .inr rfl⟩ (by simp [Names, labels])
  | ret =>
    exact Code.ret_within registers fun i small _ => UInt16.le_trans small (by decide)

/-- The function that a scope stands in has a name of the source. -/
def Scope.Sound (s : Scope) : Prop :=
  ∀ f ∈ s.function, UserName f

theorem Scope.Sound.next {s : Scope} {c : Command} (h : s.Sound) (allowed : c.Allowed s) :
    (s.next c).Sound := by
  cases c with
  | operate op => cases op <;> exact h
  | function name localCount =>
    intro f hf
    have same : (s.next (.function name localCount)).function = some name := by
      simp only [Scope.next]
      split <;> rfl
    rw [same] at hf
    cases hf
    exact allowed.1
  | _ => exact h

theorem Command.labelSymbol_sound {s : Scope} {c : Command} {name : String} (sound : s.Sound)
    (allowed : c.Allowed s) (h : c = .label name ∨ c = .goto name ∨ c = .ifGoto name) :
    (s.labelSymbol name).Sound ∧ isName (s.labelSymbol name).text.toList = true := by
  have named : UserName name ∧ isName (s.labelSymbol name).text.toList = true := by
    obtain rfl | rfl | rfl := h <;> exact allowed
  refine ⟨?_, named.2⟩
  unfold Scope.labelSymbol
  split
  · next f there => exact ⟨sound f there, named.1⟩
  · exact named.1

/-- Every name of an accepted block is sound and a name of assembly language. -/
theorem Command.names_sound {s : Scope} {c : Command} (sound : s.Sound) (allowed : c.Allowed s)
    {a : Symbol} (h : c.Names s a) : a.Sound ∧ isName a.text.toList = true := by
  cases a with
  | register r => exact ⟨trivial, by cases r <;> decide⟩
  | static unit index =>
    obtain ⟨rfl, rfl | rfl⟩ := h
    · exact ⟨trivial, allowed.2⟩
    · exact ⟨trivial, allowed.2.2⟩
  | function name =>
    obtain ⟨n, rfl | rfl⟩ := h
    · exact ⟨allowed.1, allowed.1.1⟩
    · exact ⟨allowed.1, allowed.1.1⟩
  | made mark number =>
    have markSound := (made_mem_labels h).2.2 allowed
    exact ⟨markSound, Symbol.isName_made markSound number⟩
  | inFunction f name =>
    obtain ⟨other, same, h⟩ := h
    rw [same]
    exact labelSymbol_sound sound allowed h
  | inUnit unit name =>
    obtain ⟨other, same, h⟩ := h
    rw [same]
    exact labelSymbol_sound sound allowed h

/-! ## Sites -/

namespace Site

/-- The number of labels made before and in the block. -/
def after (s : Site) : Nat :=
  match s.task with
  | .setStack _ => s.scope.labelCount
  | .command c => (s.scope.next c).labelCount

/-- The labels that the block defines. -/
def labels (s : Site) : List Symbol :=
  match s.task with
  | .setStack _ => []
  | .command c => c.labels s.scope

/-- The names that the block may hold. -/
def Names (s : Site) (a : Symbol) : Prop :=
  match s.task with
  | .setStack _ => ∃ r, a = .register r
  | .command c => c.Names s.scope a

/-- An accepted block in a sound scope. -/
structure Sound (s : Site) : Prop where
  allowed : s.Allowed
  scope : s.scope.Sound

variable {s : Site}

theorem code_labels (s : Site) : s.code.filterMap labelOf? = s.labels := by
  obtain ⟨scope, note, task⟩ := s
  cases task with
  | setStack base => rfl
  | command c => exact c.code_labels scope

theorem mem_labels_iff {a : Symbol} : a ∈ s.labels ↔ .label a ∈ s.code := by
  rw [← code_labels, List.mem_filterMap]
  constructor
  · rintro ⟨st, mem, named⟩
    cases st <;> cases named
    exact mem
  · exact fun mem => ⟨_, mem, rfl⟩

theorem labels_nodup (s : Site) : s.labels.Nodup := by
  obtain ⟨scope, note, task⟩ := s
  cases task with
  | setStack base => exact .nil
  | command c => exact c.labels_nodup scope

theorem code_within (s : Site) :
    ∀ st ∈ s.code, Within s.Names (fun v => s.Allowed → v ≤ maxAddress) st := by
  obtain ⟨scope, note, task⟩ := s
  cases task with
  | setStack base => exact Code.setStack_within (fun r => ⟨r, rfl⟩) id
  | command c => exact c.code_within scope

theorem code_names (s : Site) : ∀ st ∈ s.code, ∀ a ∈ nameOf? st, s.Names a := by
  intro st mem a named
  have inside := s.code_within st mem
  cases st <;> cases named <;> exact inside

/-- A made label that a block holds is one of its own. -/
theorem made_mem_labels {mark : Mark} {number : Nat} (h : s.Names (.made mark number)) :
    .made mark number ∈ s.labels ∧ number = s.scope.labelCount ∧ s.scope.labelCount < s.after := by
  obtain ⟨scope, note, task⟩ := s
  cases task with
  | setStack base =>
    obtain ⟨r, same⟩ := h
    cases same
  | command c =>
    obtain ⟨count, grows, -⟩ := Command.made_mem_labels h
    exact ⟨h, count, grows⟩

theorem Sound.names (h : s.Sound) {a : Symbol} (named : s.Names a) :
    a.Sound ∧ isName a.text.toList = true := by
  obtain ⟨scope, note, task⟩ := s
  cases task with
  | setStack base =>
    obtain ⟨r, rfl⟩ := named
    exact ⟨trivial, by cases r <;> decide⟩
  | command c => exact Command.names_sound h.scope h.allowed named

/-- The statements of an accepted block have written forms of their own. -/
theorem Sound.proper (h : s.Sound) : ∀ st ∈ s.code, (st.map Symbol.text).Proper := by
  intro st mem
  cases st with
  | label a => exact (h.names (s.code_names _ mem a rfl)).2
  | reference a => exact (h.names (s.code_names _ mem a rfl)).2
  | instr i =>
    have inside := s.code_within _ mem
    cases i with
    | address v => exact inside h.allowed
    | compute dest comp jump => exact inside

end Site

/-- The blocks come one after the other in the count of labels. -/
def Counted (sites : List Site) : Prop :=
  sites.Pairwise fun s t => s.after ≤ t.scope.labelCount

theorem labelCount_le_next (s : Scope) (c : Command) : s.labelCount ≤ (s.next c).labelCount := by
  rw [s.labelCount_next]
  exact Nat.le_add_right _ _

/-- The counts of blocks lie between two numbers and grow. -/
structure Run (sites : List Site) (first last : Nat) : Prop where
  counted : Counted sites
  low : ∀ s ∈ sites, first ≤ s.scope.labelCount
  high : ∀ s ∈ sites, s.after ≤ last
  grows : first ≤ last

theorem run_nil (count : Nat) : Run [] count count :=
  ⟨.nil, by simp, by simp, Nat.le_refl _⟩

theorem run_singleton {s : Site} (grows : s.scope.labelCount ≤ s.after) :
    Run [s] s.scope.labelCount s.after :=
  ⟨List.pairwise_singleton .., by simp, by simp, grows⟩

theorem Run.append {sites more : List Site} {first mid last : Nat} (h : Run sites first mid)
    (h' : Run more mid last) : Run (sites ++ more) first last := by
  refine ⟨?_, ?_, ?_, Nat.le_trans h.grows h'.grows⟩
  · refine List.pairwise_append.2 ⟨h.counted, h'.counted, fun s hs t ht => ?_⟩
    exact Nat.le_trans (h.high s hs) (h'.low t ht)
  · refine List.forall_mem_append.2 ⟨h.low, fun s hs => ?_⟩
    exact Nat.le_trans h.grows (h'.low s hs)
  · refine List.forall_mem_append.2 ⟨fun s hs => ?_, h'.high⟩
    exact Nat.le_trans (h.high s hs) h'.grows

theorem run_sitesFrom (annotate : Bool) (s : Scope) (commands : List Command) :
    Run (sitesFrom annotate s commands) s.labelCount (s.run commands).labelCount := by
  induction commands generalizing s with
  | nil => exact run_nil _
  | cons c commands ih =>
    have here := run_singleton (s := ⟨s, noted annotate c.text, .command c⟩) (labelCount_le_next s c)
    exact here.append (ih (s.next c))

theorem run_unitSites (annotate : Bool) (count : Nat) (units : List (String × String)) :
    ∃ last, Run (unitSites annotate count units) count last := by
  induction units generalizing count with
  | nil => exact ⟨count, run_nil count⟩
  | cons unit units ih =>
    obtain ⟨last, rest⟩ := ih _
    exact ⟨last, (run_sitesFrom annotate (unitScope unit.1 count) _).append rest⟩

/-- The labels made grow along an outline. -/
theorem outline_counted (units : List (String × String)) (bootstrap : Bool) (config : Config) :
    Counted (outline units bootstrap config) := by
  cases bootstrap with
  | false => exact (run_unitSites _ _ _).elim fun _ run => run.counted
  | true =>
    obtain ⟨last, run⟩ := run_unitSites config.annotate 1 units
    have set := run_singleton (Nat.le_refl 0)
      (s := ⟨unitScope "" 0, noted config.annotate "bootstrap", .setStack config.stackBase⟩)
    have call := run_singleton (Nat.zero_le 1)
      (s := ⟨unitScope "" 0, none, .command (.call config.entry 0)⟩)
    exact ((set.append call).append run).counted

theorem sitesFrom_sound {annotate : Bool} {s : Scope} {commands : List Command} (sound : s.Sound)
    (h : ∀ site ∈ sitesFrom annotate s commands, site.Allowed) :
    ∀ site ∈ sitesFrom annotate s commands, site.Sound := by
  induction commands generalizing s with
  | nil => exact List.forall_mem_nil _
  | cons c commands ih =>
    rw [sitesFrom, List.forall_mem_cons] at h ⊢
    exact ⟨⟨h.1, sound⟩, ih (sound.next h.1) h.2⟩

theorem unitScope_sound (unit : String) (count : Nat) : (unitScope unit count).Sound :=
  fun _ hf => nomatch hf

theorem unitSites_sound {annotate : Bool} {count : Nat} {units : List (String × String)}
    (h : ∀ site ∈ unitSites annotate count units, site.Allowed) :
    ∀ site ∈ unitSites annotate count units, site.Sound := by
  induction units generalizing count with
  | nil => exact List.forall_mem_nil _
  | cons unit units ih =>
    rw [unitSites, List.forall_mem_append] at h ⊢
    exact ⟨sitesFrom_sound (unitScope_sound _ _) h.1, ih h.2⟩

/-- The blocks of an outline whose commands are all accepted are sound. -/
theorem outline_sound {units : List (String × String)} {bootstrap : Bool} {config : Config}
    (h : ∀ s ∈ outline units bootstrap config, s.Allowed) :
    ∀ s ∈ outline units bootstrap config, s.Sound := by
  cases bootstrap with
  | false => exact unitSites_sound h
  | true =>
    rw [outline, if_pos rfl, List.forall_mem_append] at h ⊢
    refine ⟨?_, unitSites_sound h.2⟩
    intro s mem
    refine ⟨h.1 s mem, ?_⟩
    have boot : ∀ s ∈ bootSites config, s.scope = unitScope "" 0 := by simp [bootSites]
    rw [boot s mem]
    exact unitScope_sound _ _

end HackPlatform.Vm
