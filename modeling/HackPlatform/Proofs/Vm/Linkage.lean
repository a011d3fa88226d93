import HackPlatform.Proofs.Vm.FrameMemory
import HackPlatform.Proofs.Vm.Image

/-!
# Linkage

In a translated program a call and a return fit together: whatever the callee did in between, as
long as its frame is there, the return comes back behind the call, with the caller's registers
restored and the result where the first argument was. That place may be the one where the return
address was saved.
-/

namespace HackPlatform.Vm

open Machine (Lands)

/-- Code at `call` and at `ret` links a callee at `entry`, with `after` as the return address: the
call enters it from every state whose stack has room for the frame, and the return leaves it from
every state that has the frame. -/
structure Linked (rom : Rom) (call after entry ret args : UInt16) : Prop where
  enters : ∀ a d (caller : Ram), caller.Full → args.toNat + 16 ≤ (caller.get .sp).toNat →
    (caller.get .sp).toNat + 5 ≤ 32767 →
    ∃ k ram, Lands rom ⟨call, a, d, caller⟩ k entry ram ∧ ram.Full ∧ caller.Entered after args ram
  returns : ∀ a d (caller callee : Ram), args.toNat + 16 ≤ (caller.get .sp).toNat →
    (caller.get .sp).toNat + 5 ≤ 32767 → callee.Full → caller.Frame after args callee →
    17 ≤ callee.get .sp → callee.get .sp ≤ 32768 →
    ∃ k ram, Lands rom ⟨ret, a, d, callee⟩ k after ram ∧ ram.Full ∧
      caller.Returned args callee ram

namespace Image

variable {sites : List Site} {p : Asm.Program} (image : Image sites p)

include image

theorem call_enters {i : Nat} {f : String} {args : UInt16}
    (call : TaskAt sites i (.command (.call f args))) (a d : UInt16) {caller : Ram}
    (full : caller.Full) (low : 16 ≤ (caller.get .sp).toNat)
    (high : (caller.get .sp).toNat + 5 ≤ 32767) :
    ∃ k ram, Lands ⟨p.words⟩ ⟨startOf sites i, a, d, caller⟩ k (addressOf p (.function f)) ram ∧
      ram.Full ∧ caller.Entered (startOf sites (i + 1)) args ram := by
  obtain ⟨scope, stands, after⟩ := image.stands_command call
  have room : Code.Room caller 5 := Code.room_of_bounds (by omega) (by omega)
  obtain ⟨k, lands⟩ := Code.call_lands image.registers full stands room
    (m := ⟨startOf sites i, a, d, caller⟩)
  rw [after]
  exact ⟨_, _, lands, Ram.full_enter.2 full, full.enter_entered low high⟩

theorem ret_returns {r : Nat} (ret : TaskAt sites r (.command .ret)) (a d : UInt16)
    {caller callee : Ram} {back args : UInt16} (low : args.toNat + 16 ≤ (caller.get .sp).toNat)
    (high : (caller.get .sp).toNat + 5 ≤ 32767) (full : callee.Full)
    (frame : caller.Frame back args callee) (top : 17 ≤ callee.get .sp)
    (bound : callee.get .sp ≤ 32768) :
    ∃ k ram, Lands ⟨p.words⟩ ⟨startOf sites r, a, d, callee⟩ k back ram ∧ ram.Full ∧
      caller.Returned args callee ram := by
  obtain ⟨scope, stands, -⟩ := image.stands_command ret
  obtain ⟨s, stack⟩ : ∃ s, caller.get .sp = s := ⟨_, rfl⟩
  rw [stack] at low high
  have arguments : (s - args).toNat = s.toNat - args.toNat :=
    UInt16.toNat_sub_of_le _ _ (UInt16.le_iff_toNat_le.2 (by omega))
  have place : 16 ≤ s - args ∧ s - args < 32768 := by
    rw [Ram.above_iff, Ram.below_iff, arguments]
    omega
  have cells : ∀ i ∈ [1, 2, 3, 4, 5], s + 5 - i < 32768 := by
    have small : s ≤ 32762 := UInt16.le_iff_toNat_le.2 (by
      show _ ≤ 32762
      omega)
    intro i mem
    have range : 1 ≤ i ∧ i ≤ 5 := by
      simp only [List.mem_cons, List.not_mem_nil, or_false] at mem
      rcases mem with rfl | rfl | rfl | rfl | rfl <;> decide
    grind
  have below : 16 ≤ callee.get .sp - 1 ∧ callee.get .sp - 1 < 32768 := by
    have low : 17 ≤ (callee.get .sp).toNat := top
    have high : (callee.get .sp).toNat ≤ 32768 := bound
    have one : (callee.get .sp - 1).toNat = (callee.get .sp).toNat - 1 :=
      UInt16.toNat_sub_of_le _ _ (UInt16.le_iff_toNat_le.2 (Nat.le_trans (by decide) low))
    rw [Ram.above_iff, Ram.below_iff, one]
    omega
  obtain ⟨k, lands⟩ := Code.ret_lands image.registers full stands
    (m := ⟨startOf sites r, a, d, callee⟩) (frame.lcl.trans (by rw [stack])) cells
    (by rw [frame.arg, stack]; exact place) below
  obtain ⟨address, returned⟩ := frame.leave_returned full stack low high below.1
  have back : (callee.set .r13 (s + 5)).peek (s + 5 - frameSize) = back := address
  rw [back] at lands
  refine ⟨_, _, lands, ?_, returned⟩
  rw [Ram.full_leave, Ram.full_set, Ram.full_set]
  exact full

end Image

/-- In a program that was translated and assembled, every call of a function that is defined is
linked to every return. -/
theorem call_linked {units : List (String × String)} {bootstrap : Bool} {config : Config}
    {text : String} {p : Asm.Program} (translated : translateSources units bootstrap config = .ok text)
    (assembled : Asm.assemble text = .ok p) {i j r : Nat} {f : String} {args locals : UInt16}
    (call : TaskAt (outline units bootstrap config) i (.command (.call f args)))
    (entry : TaskAt (outline units bootstrap config) j (.command (.function f locals)))
    (ret : TaskAt (outline units bootstrap config) r (.command .ret)) :
    Linked ⟨p.words⟩ (startOf (outline units bootstrap config) i)
      (startOf (outline units bootstrap config) (i + 1))
      (startOf (outline units bootstrap config) j) (startOf (outline units bootstrap config) r)
      args := by
  have image := image_of_translation translated assembled
  refine ⟨fun a d caller full low high => ?_, fun a d caller callee low high full frame => ?_⟩
  · rw [← image.address_function entry]
    exact image.call_enters call a d full (by omega) high
  · exact image.ret_returns ret a d low high full frame

/-- A program of one function that returns at once. -/
def returner : List (String × String) :=
  [("Sys", "function Sys.init 0\nreturn")]

/-- The bootstrap calls the function, which has no arguments and leaves nothing on the stack, so the
result is read from the frame and written over the return address. -/
theorem call_linked_returner :
    ∃ text p, translateSources returner true ⟨.auto, "Sys.init", 256, false⟩ = .ok text ∧
      Asm.assemble text = .ok p ∧
      ∃ k l ram back,
        Lands ⟨p.words⟩
          ⟨startOf (outline returner true ⟨.auto, "Sys.init", 256, false⟩) 1, 0, 0,
            (Ram.zeros Ram.fullSize).set .sp 256⟩ k
          (startOf (outline returner true ⟨.auto, "Sys.init", 256, false⟩) 2) ram ∧
        Lands ⟨p.words⟩
          ⟨startOf (outline returner true ⟨.auto, "Sys.init", 256, false⟩) 3, 0, 0, ram⟩ l
          (startOf (outline returner true ⟨.auto, "Sys.init", 256, false⟩) 2) back ∧
        ((Ram.zeros Ram.fullSize).set .sp 256).Returned 0 ram back := by
  let config : Config := ⟨.auto, "Sys.init", 256, false⟩
  have tasks (k : Nat) (task : Task)
      (h : (outline returner true config)[k]?.map Site.task = some task) :
      TaskAt (outline returner true config) k task := Option.map_eq_some_iff.1 h
  obtain ⟨text, p, translated, assembled⟩ :=
    @exists_program returner true config (by decide +kernel) (by decide +kernel)
  have linked := call_linked translated assembled
    (tasks 1 (.command (.call "Sys.init" 0)) (by decide +kernel))
    (tasks 2 (.command (.function "Sys.init" 0)) (by decide +kernel))
    (tasks 3 (.command .ret) (by decide +kernel))
  have full : (Ram.zeros Ram.fullSize).Full := Ram.size_zeros _
  have stack : ((Ram.zeros Ram.fullSize).set .sp 256).get .sp = 256 := full.get_set
  obtain ⟨k, ram, entered, fullRam, frame⟩ := linked.enters 0 0 _ (Ram.full_set.2 full)
    (by rw [stack]; decide) (by rw [stack]; decide)
  have top : ram.get .sp = 261 := by
    rw [frame.sp, stack]
    rfl
  obtain ⟨l, back, left, -, returned⟩ := linked.returns 0 0 _ ram (by rw [stack]; decide)
    (by rw [stack]; decide) fullRam frame.frame (by rw [top]; decide) (by rw [top]; decide)
  exact ⟨text, p, translated, assembled, k, l, ram, back, entered, left, returned⟩

end HackPlatform.Vm
