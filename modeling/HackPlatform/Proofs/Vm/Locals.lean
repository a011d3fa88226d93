import HackPlatform.Proofs.Vm.FrameMemory
import HackPlatform.Proofs.Vm.Image

/-!
# Local variables

Where the block of a function stands in a program, it clears the function's local variables and
goes on behind itself: in a loop of eight instructions that counts in D, so that it ends for every
number of variables whose sign bit is not set. It may clear every cell but the stack pointer's own.
-/

namespace HackPlatform.Ram

variable {ram : Ram}

/-- What a memory is when a number of words on top of the stack were cleared. -/
structure Cleared (ram : Ram) (n : Nat) (next : Ram) : Prop where
  full : next.Full
  sp : (next.get .sp).toNat = (ram.get .sp).toNat + n
  zero : ∀ addr : UInt16, (ram.get .sp).toNat ≤ addr.toNat →
    addr.toNat < (ram.get .sp).toNat + n → next.peek addr = 0
  rest : ∀ addr : UInt16, addr ≠ 0 →
    addr.toNat < (ram.get .sp).toNat ∨ (ram.get .sp).toNat + n ≤ addr.toNat →
    next.peek addr = ram.peek addr

/-- To clear is to push zeros. -/
theorem clear_eq_pushAll (n : Nat) : ram.clear n = ram.pushAll (List.replicate n 0) := by
  induction n generalizing ram with
  | zero => rfl
  | succ n ih => rw [clear_succ, List.replicate_succ, pushAll_cons, ih]

theorem Full.clear_cleared {n : Nat} (full : ram.Full) (low : 1 ≤ (ram.get .sp).toNat)
    (high : (ram.get .sp).toNat + n ≤ 32768) : Cleared ram n (ram.clear n) := by
  obtain ⟨whole, sp, word, rest⟩ := full.pushAll_holds (List.replicate n 0) low
    (by rwa [List.length_replicate])
  rw [List.length_replicate] at sp rest
  rw [clear_eq_pushAll]
  refine ⟨whole, sp, fun addr above below => ?_, rest⟩
  refine word (addr.toNat - (ram.get .sp).toNat) 0 addr ?_ (by omega)
  rw [List.getElem?_replicate, if_pos (by omega)]

end HackPlatform.Ram

namespace HackPlatform.Vm

open Machine (Lands Stays stays_zero)

/-- The steps of a function's block: without local variables it is a label alone. -/
def localSteps (n : Nat) : Nat :=
  if n = 0 then 0 else 2 + 8 * n

/-- The block of a function from its label on. -/
theorem Code.function_lands {rom : Rom} {address : Symbol → UInt16} {m : Machine} {s : Scope}
    {f : String} {n : UInt16} (regs : RegistersAt address) (full : m.ram.Full)
    (stands : Asm.Stands rom address m.pc ((Command.function f n).code s)) (small : n ≤ maxAddress)
    (room : Room m.ram n.toNat) :
    Lands rom m (localSteps n.toNat) (Asm.behind m.pc ((Command.function f n).code s))
        (m.ram.clear n.toNat) ∧
      Stays rom m (localSteps n.toNat) m.pc (Asm.wordCount ((Command.function f n).code s)) := by
  by_cases none : n = 0
  · subst none
    have code : (Command.function f 0).code s = [.label (.function f)] := rfl
    rw [code, Asm.behind_label, Asm.behind_nil]
    exact ⟨.refl rom m, stays_zero⟩
  · have some : n.toNat ≠ 0 := fun zero => none (UInt16.toNat_inj.1 zero)
    have code : (Command.function f n).code s =
        .label (.function f) :: Code.clear n s.labelCount := by
      rw [Command.code, if_neg none]
    rw [code] at stands ⊢
    rw [localSteps, if_neg some]
    exact Code.clear_lands regs full stands.2 none small room

namespace Image

variable {sites : List Site} {p : Asm.Program} (image : Image sites p)

include image

/-- Steps within a block are made between its start and the start of the next block. -/
theorem between_starts {k : Nat} {s : Site} (site : sites[k]? = some s) {m : Machine} {steps : Nat}
    (stays : Stays ⟨p.words⟩ m steps (startOf sites k) (Asm.wordCount s.code)) :
    ∀ j < steps, ∀ between, m.advance ⟨p.words⟩ j = .ok between →
      startOf sites k ≤ between.pc ∧ between.pc < startOf sites (k + 1) := by
  intro j small between there
  obtain ⟨i, inside, place⟩ := stays j small between there
  have words := wordCount_take_succ site
  have first := image.toNat_startOf k
  have next := image.toNat_startOf (k + 1)
  have bound : (startOf sites (k + 1)).toNat < 65536 := (startOf sites (k + 1)).toNat_lt
  have offset : i.toUInt16.toNat = i := Asm.toNat_toUInt16 (by omega)
  have pc : between.pc.toNat = (startOf sites k).toNat + i := by
    rw [place, UInt16.toNat_add, offset]
    exact Nat.mod_eq_of_lt (by omega)
  rw [UInt16.le_iff_toNat_le, UInt16.lt_iff_toNat_lt]
  omega

end Image

/-- In a program that was translated and assembled, the block of a function with `n` local variables
clears `n` cells from the stack pointer on. It takes two steps and eight for each cell, or none if
there are no cells, and only the last of them leaves the block. -/
theorem function_clears {units : List (String × String)} {bootstrap : Bool} {config : Config}
    {text : String} {p : Asm.Program} (translated : translateSources units bootstrap config = .ok text)
    (assembled : Asm.assemble text = .ok p) {k : Nat} {f : String} {n : UInt16}
    (here : TaskAt (outline units bootstrap config) k (.command (.function f n))) (a d : UInt16)
    {ram : Ram} (full : ram.Full) (low : 1 ≤ (ram.get .sp).toNat)
    (high : (ram.get .sp).toNat + n.toNat ≤ 32768) :
    let start := startOf (outline units bootstrap config)
    ∃ next, Lands ⟨p.words⟩ ⟨start k, a, d, ram⟩ (localSteps n.toNat) (start (k + 1)) next ∧
      ram.Cleared n.toNat next ∧
      ∀ j < localSteps n.toNat, ∀ between, Machine.advance ⟨p.words⟩ j ⟨start k, a, d, ram⟩ =
        .ok between → start k ≤ between.pc ∧ between.pc < start (k + 1) := by
  intro start
  have image := image_of_translation translated assembled
  obtain ⟨⟨scope, note, task⟩, site, rfl⟩ := here
  have small : n ≤ maxAddress := (image.sound_at site).allowed.2
  obtain ⟨lands, stays⟩ := Code.function_lands image.registers full (image.stands site) small
    (Code.room_of_bounds low high) (m := ⟨start k, a, d, ram⟩)
  have code : Site.code ⟨scope, note, .command (.function f n)⟩ = (Command.function f n).code scope :=
    rfl
  have next := startOf_succ site
  rw [code] at next
  rw [← next] at lands
  exact ⟨_, lands, full.clear_cleared low high, image.between_starts site stays⟩

/-- A function that clears all there is. -/
def clearer : List (String × String) :=
  [("Main", "function Main.wipe 32767")]

/-- Memory with every bit set but for the stack pointer, which is at the lowest cell it can have. -/
def littered : Ram :=
  Ram.set ⟨Array.replicate Ram.fullSize 0xFFFF⟩ .sp 1

/-- The loop takes 262138 steps and clears the whole of memory but the stack pointer. -/
theorem function_clears_all :
    ∃ text p next, translateSources clearer false ⟨.auto, "Sys.init", 256, false⟩ = .ok text ∧
      Asm.assemble text = .ok p ∧
      Lands ⟨p.words⟩ ⟨0, 0, 0, littered⟩ 262138 10 next ∧ (next.get .sp).toNat = 32768 ∧
      ∀ addr : UInt16, addr ≠ 0 → addr < 32768 → next.peek addr = 0 := by
  let config : Config := ⟨.auto, "Sys.init", 256, false⟩
  obtain ⟨text, p, translated, assembled⟩ :=
    @exists_program clearer false config (by decide +kernel) (by decide +kernel)
  have here : TaskAt (outline clearer false config) 0 (.command (.function "Main.wipe" 32767)) :=
    Option.map_eq_some_iff.1 (by decide +kernel)
  have whole : Ram.Full ⟨Array.replicate Ram.fullSize 0xFFFF⟩ := Array.size_replicate
  have full : littered.Full := Ram.full_set.2 whole
  have stack : littered.get .sp = 1 := whole.get_set
  obtain ⟨next, lands, cleared, -⟩ := function_clears translated assembled here 0 0 full
    (by rw [stack]; decide) (by rw [stack]; decide)
  have first : startOf (outline clearer false config) 0 = 0 := rfl
  have last : startOf (outline clearer false config) 1 = 10 := by decide +kernel
  have steps : localSteps (32767 : UInt16).toNat = 262138 := by decide +kernel
  rw [first, last, steps] at lands
  have total : (1 : UInt16).toNat + (32767 : UInt16).toNat = 32768 := by decide +kernel
  have sp := cleared.sp
  have zero := cleared.zero
  rw [stack, total] at sp zero
  refine ⟨text, p, next, translated, assembled, lands, sp, fun addr other below => ?_⟩
  have positive : addr.toNat ≠ 0 := fun none => other (UInt16.toNat_inj.1 none)
  exact zero addr (Nat.pos_of_ne_zero positive) (Ram.below_iff.1 below)

end HackPlatform.Vm
