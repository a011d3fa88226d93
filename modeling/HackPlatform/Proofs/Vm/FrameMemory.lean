import HackPlatform.Proofs.Vm.Memory

/-!
# Frames in memory

What a call and a return make of memory, cell by cell. A call puts five words on the stack and moves
three registers; a return writes the result where the arguments began and takes the registers back
from the frame, of which the result may have overwritten the lowest word.
-/

namespace HackPlatform.Ram

open Vm (Register)

variable {ram : Ram} {addr w : UInt16}

/-- Addresses of cells are added as numbers. -/
theorem toNat_add {s : UInt16} {k : UInt16} (h : s.toNat + k.toNat ≤ 32768) :
    (s + k).toNat = s.toNat + k.toNat := by
  rw [UInt16.toNat_add]
  exact Nat.mod_eq_of_lt (by omega)

/-- A push changes the stack pointer and the cell it was at. -/
theorem peek_push (h : addr ≠ 0) (other : addr ≠ ram.get .sp) :
    (ram.push w).peek addr = ram.peek addr :=
  (peek_poke_of_ne _ _ h).trans (peek_poke_of_ne _ _ other)

theorem Full.peek_push (full : ram.Full) (positive : ram.get .sp ≠ 0)
    (bound : ram.get .sp < 32768) : (ram.push w).peek (ram.get .sp) = w :=
  (peek_poke_of_ne _ _ positive).trans (full.peek_poke bound)

/-- Words are put on the stack, the first lowest. -/
def pushAll (ram : Ram) (ws : List UInt16) : Ram :=
  ws.foldl push ram

theorem pushAll_cons (ram : Ram) (w : UInt16) (ws : List UInt16) :
    ram.pushAll (w :: ws) = (ram.push w).pushAll ws := rfl

/-- What words on the stack change. -/
structure Holds (ram : Ram) (ws : List UInt16) (next : Ram) : Prop where
  full : next.Full
  sp : (next.get .sp).toNat = (ram.get .sp).toNat + ws.length
  word : ∀ i w addr, ws[i]? = some w → addr.toNat = (ram.get .sp).toNat + i → next.peek addr = w
  rest : ∀ addr, addr ≠ 0 →
    addr.toNat < (ram.get .sp).toNat ∨ (ram.get .sp).toNat + ws.length ≤ addr.toNat →
    next.peek addr = ram.peek addr

theorem Full.pushAll_holds (ws : List UInt16) (full : ram.Full) (low : 1 ≤ (ram.get .sp).toNat)
    (high : (ram.get .sp).toNat + ws.length ≤ 32768) : Holds ram ws (ram.pushAll ws) := by
  induction ws generalizing ram with
  | nil => exact ⟨full, rfl, fun _ _ _ there => (nomatch there), fun _ _ _ => rfl⟩
  | cons w ws ih =>
    rw [List.length_cons] at high
    have sp : ((ram.push w).get .sp).toNat = (ram.get .sp).toNat + 1 := by
      rw [full.get_sp_push]
      exact toNat_add (by rw [UInt16.toNat_one]; omega)
    obtain ⟨full', sp', word, rest⟩ := ih (Ram.full_push (w := w) |>.2 full) (by omega) (by omega)
    refine ⟨full', ?_, ?_, ?_⟩
    · show ((Ram.pushAll _ ws).get .sp).toNat = _
      rw [sp', sp, List.length_cons]
      omega
    · intro i v addr there place
      cases i with
      | zero =>
        cases there
        have same : addr = ram.get .sp := UInt16.toNat_inj.1 place
        subst same
        have positive : ram.get .sp ≠ 0 := by
          intro zero
          rw [zero] at low
          exact absurd low (by decide)
        rw [Ram.pushAll, List.foldl_cons]
        exact (rest _ positive (by omega)).trans (full.peek_push positive (below_iff.2 (by omega)))
      | succ i => exact word i v addr there (by omega)
    · intro addr positive outside
      rw [List.length_cons] at outside
      have other : addr ≠ ram.get .sp := by
        rintro rfl
        omega
      exact (rest addr positive (by omega)).trans (Ram.peek_push positive other)

/-- Saving registers one after the other puts on the stack what they held before. -/
theorem Full.foldl_save {rs : List Register} (full : ram.Full) (low : 16 ≤ (ram.get .sp).toNat)
    (high : (ram.get .sp).toNat + rs.length ≤ 32768) (other : .sp ∉ rs) :
    rs.foldl save ram = ram.pushAll (rs.map ram.get) := by
  induction rs generalizing ram with
  | nil => rfl
  | cons r rs ih =>
    rw [List.length_cons] at high
    rw [List.mem_cons, not_or] at other
    have sp : ((ram.save r).get .sp).toNat = (ram.get .sp).toNat + 1 := by
      rw [save, full.get_sp_push]
      exact toNat_add (by rw [UInt16.toNat_one]; omega)
    have keeps : rs.map (ram.save r).get = rs.map ram.get := by
      refine List.map_congr_left fun q hq => get_push (UInt16.le_iff_toNat_le.2 low) ?_
      rintro rfl
      exact other.2 hq
    rw [List.foldl_cons, ih (full_save.2 full) (by omega) (by omega) other.2, keeps]
    rfl

/-- The frame of a call: the callee's registers, and the five words with which the caller is found
again. -/
structure Frame (caller : Ram) (back args : UInt16) (ram : Ram) : Prop where
  lcl : ram.get .lcl = caller.get .sp + 5
  arg : ram.get .arg = caller.get .sp - args
  back : ram.peek (caller.get .sp) = back
  savedLcl : ram.peek (caller.get .sp + 1) = caller.get .lcl
  savedArg : ram.peek (caller.get .sp + 2) = caller.get .arg
  savedThis : ram.peek (caller.get .sp + 3) = caller.get .this
  savedThat : ram.peek (caller.get .sp + 4) = caller.get .that

/-- What a call makes of memory. -/
structure Entered (caller : Ram) (back args : UInt16) (ram : Ram) : Prop where
  frame : Frame caller back args ram
  sp : ram.get .sp = caller.get .sp + 5
  rest : ∀ addr : UInt16, 3 ≤ addr → addr < caller.get .sp ∨ caller.get .sp + 5 ≤ addr →
    ram.peek addr = caller.peek addr

/-- The five words that a call puts on the stack. -/
def saved (ram : Ram) (back : UInt16) : Ram :=
  ram.pushAll [back, ram.get .lcl, ram.get .arg, ram.get .this, ram.get .that]

theorem Full.foldl_save_push {back : UInt16} (full : ram.Full) (low : 16 ≤ (ram.get .sp).toNat)
    (high : (ram.get .sp).toNat + 5 ≤ 32767) :
    [Register.lcl, .arg, .this, .that].foldl save (ram.push back) = ram.saved back := by
  have sp : ((ram.push back).get .sp).toNat = (ram.get .sp).toNat + 1 := by
    rw [full.get_sp_push]
    exact toNat_add (by rw [UInt16.toNat_one]; omega)
  have keeps (r : Register) (hr : r ≠ .sp) : (ram.push back).get r = ram.get r :=
    get_push (UInt16.le_iff_toNat_le.2 low) hr
  have fits : ((ram.push back).get .sp).toNat + [Register.lcl, .arg, .this, .that].length ≤ 32768 := by
    rw [sp]
    simp only [List.length_cons, List.length_nil]
    omega
  rw [(full_push.2 full).foldl_save (by omega) fits (by decide), saved, pushAll_cons]
  simp only [List.map_cons, List.map_nil, keeps .lcl (by decide), keeps .arg (by decide),
    keeps .this (by decide), keeps .that (by decide)]

theorem Full.enter_eq {back offset : UInt16} (full : ram.Full) (low : 16 ≤ (ram.get .sp).toNat)
    (high : (ram.get .sp).toNat + 5 ≤ 32767) :
    ram.enter back offset =
      let framed := (ram.saved back).set .arg ((ram.saved back).get .sp - offset)
      framed.set .lcl (framed.get .sp) := by
  rw [← full.foldl_save_push low high]
  rfl

theorem Full.enter_entered {back args : UInt16} (full : ram.Full) (low : 16 ≤ (ram.get .sp).toNat)
    (high : (ram.get .sp).toNat + 5 ≤ 32767) : Entered ram back args (ram.enter back (args + 5)) := by
  obtain ⟨fullSaved, sp, word, rest⟩ := full.pushAll_holds
    [back, ram.get .lcl, ram.get .arg, ram.get .this, ram.get .that] (by omega)
    (by simpa using by omega)
  change (ram.saved back).Full at fullSaved
  change ((ram.saved back).get .sp).toNat = (ram.get .sp).toNat + 5 at sp
  have five : (ram.get .sp + 5).toNat = (ram.get .sp).toNat + 5 :=
    toNat_add (Nat.le_succ_of_le high)
  have top : (ram.saved back).get .sp = ram.get .sp + 5 := by
    rw [← UInt16.toNat_inj, sp, five]
  have above (addr : UInt16) (h : 3 ≤ addr) :
      (ram.enter back (args + 5)).peek addr = (ram.saved back).peek addr := by
    rw [full.enter_eq low high]
    refine (peek_poke_of_ne _ _ ?_).trans (peek_poke_of_ne _ _ ?_)
    · rintro rfl
      exact absurd h (by decide)
    · rintro rfl
      exact absurd h (by decide)
  have cell (i : UInt16) (small : i ≤ 4) :
      (ram.get .sp + i).toNat = (ram.get .sp).toNat + i.toNat ∧ 3 ≤ ram.get .sp + i := by
    have bound : i.toNat ≤ 4 := small
    have place : (ram.get .sp + i).toNat = (ram.get .sp).toNat + i.toNat := toNat_add (by omega)
    refine ⟨place, UInt16.le_iff_toNat_le.2 ?_⟩
    rw [place]
    exact Nat.le_trans (Nat.le_trans (by decide) low) (Nat.le_add_right _ _)
  have saved (i : UInt16) (w : UInt16) (small : i ≤ 4)
      (there : [back, ram.get .lcl, ram.get .arg, ram.get .this, ram.get .that][i.toNat]? = some w) :
      (ram.enter back (args + 5)).peek (ram.get .sp + i) = w :=
    (above _ (cell i small).2).trans (word i.toNat w _ there (cell i small).1)
  refine ⟨⟨?_, ?_, ?_, ?_, ?_, ?_, ?_⟩, ?_, ?_⟩
  · rw [full.enter_eq low high, Full.get_set (full_set.2 fullSaved), get_set_of_ne (by decide), top]
  · rw [full.enter_eq low high, get_set_of_ne (by decide), fullSaved.get_set, top]
    grind
  · have lowest := saved 0 _ (by decide) rfl
    rwa [UInt16.add_zero] at lowest
  · exact saved 1 _ (by decide) rfl
  · exact saved 2 _ (by decide) rfl
  · exact saved 3 _ (by decide) rfl
  · exact saved 4 _ (by decide) rfl
  · rw [full.enter_eq low high, get_set_of_ne (by decide), get_set_of_ne (by decide), top]
  · intro addr apart outside
    rw [above addr apart]
    refine rest addr ?_ ?_
    · rintro rfl
      exact absurd apart (by decide)
    · refine outside.imp UInt16.lt_iff_toNat_lt.1 fun h => ?_
      have bound := UInt16.le_iff_toNat_le.1 h
      rw [five] at bound
      exact bound

/-- What a return makes of memory: the topmost word is the caller's result, and the caller's
registers are back. Besides them only R13 and R14 may change. -/
structure Returned (caller : Ram) (args : UInt16) (callee ram : Ram) : Prop where
  result : ram.peek (caller.get .sp - args) = callee.top
  sp : ram.get .sp = caller.get .sp - args + 1
  lcl : ram.get .lcl = caller.get .lcl
  arg : ram.get .arg = caller.get .arg
  this : ram.get .this = caller.get .this
  that : ram.get .that = caller.get .that
  rest : ∀ addr : UInt16, 5 ≤ addr → addr ≠ 13 → addr ≠ 14 → addr ≠ caller.get .sp - args →
    ram.peek addr = callee.peek addr

/-- Above the registers of a frame, setting one of them changes nothing. -/
theorem peek_set_of_lt {r : Register} (low : r.cell < 5) (high : 5 ≤ addr) :
    (ram.set r w).peek addr = ram.peek addr := by
  refine peek_poke_of_ne _ _ ?_
  rintro rfl
  exact absurd low (UInt16.not_lt.2 high)

/-- The cells of the memory that a return leaves. -/
theorem Full.leave_cells {frame place : UInt16} (full : ram.Full) (arg : ram.get .arg = place)
    (low : 16 ≤ place) (bound : place < 32768)
    (cells : ∀ i ∈ [1, 2, 3, 4], 16 ≤ frame - i ∧ frame - i ≠ place) :
    (ram.leave frame).peek place = ram.top ∧ (ram.leave frame).get .sp = place + 1 ∧
      (ram.leave frame).get .lcl = ram.peek (frame - 4) ∧
      (ram.leave frame).get .arg = ram.peek (frame - 3) ∧
      (ram.leave frame).get .this = ram.peek (frame - 2) ∧
      (ram.leave frame).get .that = ram.peek (frame - 1) ∧
      ∀ addr : UInt16, 5 ≤ addr → addr ≠ place → (ram.leave frame).peek addr = ram.peek addr := by
  -- The memory is built up in the order of the code: result, stack pointer, then the registers.
  let handed := ram.drop.poke place ram.top
  let cut := handed.set .sp (place + 1)
  have argument : handed.get .arg = place := by
    rw [get_poke low, get_drop (by decide), arg]
  have whole : cut.Full := by
    rw [full_set, full_poke, full_drop]
    exact full
  have kept (addr : UInt16) (h : 16 ≤ addr) (other : addr ≠ place) : cut.peek addr = ram.peek addr := by
    rw [peek_set h, peek_poke_of_ne _ _ other]
    exact peek_set h
  have shape : ram.leave frame = (((cut.set .that (ram.peek (frame - 1))).set .this
      (ram.peek (frame - 2))).set .arg (ram.peek (frame - 3))).set .lcl (ram.peek (frame - 4)) := by
    have word (i : UInt16) (h : i ∈ [1, 2, 3, 4]) : cut.peek (frame - i) = ram.peek (frame - i) :=
      kept _ (cells i h).1 (cells i h).2
    have far (i : UInt16) (h : i ∈ [1, 2, 3, 4]) : 16 ≤ frame - i := (cells i h).1
    have start : (ram.drop.poke (ram.get .arg) ram.top).set .sp
        ((ram.drop.poke (ram.get .arg) ram.top).get .arg + 1) = cut := by
      rw [arg]
      exact congrArg (fun w => handed.set .sp (w + 1)) argument
    simp only [leave, restore, start]
    rw [peek_set (far 2 (by decide)), peek_set (far 3 (by decide)), peek_set (far 3 (by decide)),
      peek_set (far 4 (by decide)), peek_set (far 4 (by decide)), peek_set (far 4 (by decide)),
      word 1 (by decide), word 2 (by decide), word 3 (by decide), word 4 (by decide)]
  rw [shape]
  refine ⟨?_, ?_, ?_, ?_, ?_, ?_, ?_⟩
  · rw [peek_set low, peek_set low, peek_set low, peek_set low, peek_set low]
    exact (full_drop.2 full).peek_poke bound
  · rw [get_set_of_ne (by decide), get_set_of_ne (by decide), get_set_of_ne (by decide),
      get_set_of_ne (by decide)]
    exact Full.get_set (by rw [full_poke, full_drop]; exact full)
  · exact Full.get_set (by simpa using whole)
  · rw [get_set_of_ne (by decide)]
    exact Full.get_set (by simpa using whole)
  · rw [get_set_of_ne (by decide), get_set_of_ne (by decide)]
    exact Full.get_set (by simpa using whole)
  · rw [get_set_of_ne (by decide), get_set_of_ne (by decide), get_set_of_ne (by decide)]
    exact Full.get_set whole
  · intro addr high other
    rw [peek_set_of_lt (by decide) high, peek_set_of_lt (by decide) high,
      peek_set_of_lt (by decide) high, peek_set_of_lt (by decide) high,
      peek_set_of_lt (by decide) high, peek_poke_of_ne _ _ other]
    exact peek_set_of_lt (by decide) high

/-- A return from the frame of a call goes back to where the call was, with the caller's registers
and the result in the place of the first argument. -/
theorem Frame.leave_returned {caller callee : Ram} {s back args : UInt16}
    (frame : Frame caller back args callee) (full : callee.Full) (stack : caller.get .sp = s)
    (low : args.toNat + 16 ≤ s.toNat) (high : s.toNat + 5 ≤ 32767)
    (top : 16 ≤ callee.get .sp - 1) :
    let kept := callee.set .r13 (s + 5)
    kept.peek (s + 5 - 5) = back ∧
      Returned caller args callee ((kept.set .r14 back).leave (s + 5)) := by
  intro kept
  have place : (s - args).toNat = s.toNat - args.toNat :=
    UInt16.toNat_sub_of_le _ _ (UInt16.le_iff_toNat_le.2 (by omega))
  have cell (i : UInt16) (small : i ≤ 4) : (s + i).toNat = s.toNat + i.toNat := by
    have bound : i.toNat ≤ 4 := small
    exact toNat_add (by omega)
  have above (i : UInt16) (small : i ≤ 4) : 16 ≤ s + i := by
    rw [above_iff, cell i small]
    omega
  -- Only the lowest word of the frame can lie in the place of the result.
  have apart (i : UInt16) (positive : 1 ≤ i) (small : i ≤ 4) : s + i ≠ s - args := by
    have one : 1 ≤ i.toNat := positive
    intro same
    rw [← UInt16.toNat_inj, cell i small, place] at same
    omega
  have five (i : UInt16) : s + 5 - i = s + (5 - i) := by grind
  have cells : ∀ i ∈ [1, 2, 3, 4], 16 ≤ s + 5 - i ∧ s + 5 - i ≠ s - args := by
    intro i mem
    have range : 1 ≤ 5 - i ∧ 5 - i ≤ 4 := by
      simp only [List.mem_cons, List.not_mem_nil, or_false] at mem
      rcases mem with rfl | rfl | rfl | rfl <;> decide
    rw [five]
    exact ⟨above _ range.2, apart _ range.1 range.2⟩
  have scratch {addr : UInt16} (h : 16 ≤ addr) : (kept.set .r14 back).peek addr = callee.peek addr :=
    (peek_set h).trans (peek_set h)
  have register (r : Register) (h : r ≠ .r13 ∧ r ≠ .r14) :
      (kept.set .r14 back).get r = callee.get r :=
    (get_set_of_ne h.2).trans (get_set_of_ne h.1)
  have address : kept.peek (s + 5 - 5) = back := by
    have lowest := above 0 (by decide)
    rw [UInt16.add_zero] at lowest
    rw [UInt16.add_sub_cancel, peek_set lowest, ← stack]
    exact frame.back
  have argument : (kept.set .r14 back).get .arg = s - args := by
    rw [register .arg (by decide), frame.arg, stack]
  have whole : (kept.set .r14 back).Full := by
    rw [full_set, full_set]
    exact full
  have low' : 16 ≤ s - args := by
    rw [above_iff, place]
    omega
  have bound : s - args < 32768 := by
    rw [below_iff, place]
    omega
  have word : (kept.set .r14 back).top = callee.top := by
    rw [Ram.top, register .sp (by decide)]
    exact scratch top
  have saved (i : UInt16) (mem : i ∈ [1, 2, 3, 4]) :
      (kept.set .r14 back).peek (s + 5 - i) = callee.peek (s + 5 - i) :=
    scratch (cells i mem).1
  obtain ⟨result, sp, lcl, arg, this, that, rest⟩ := whole.leave_cells argument low' bound cells
  refine ⟨address, ?_, ?_, ?_, ?_, ?_, ?_, ?_⟩
  · rw [stack, result, word]
  · rw [stack, sp]
  · rw [lcl, saved 4 (by decide), five, ← frame.savedLcl, stack]
    rfl
  · rw [arg, saved 3 (by decide), five, ← frame.savedArg, stack]
    rfl
  · rw [this, saved 2 (by decide), five, ← frame.savedThis, stack]
    rfl
  · rw [that, saved 1 (by decide), five, ← frame.savedThat, stack]
    rfl
  · intro addr high no13 no14 other
    rw [stack] at other
    rw [rest addr high other]
    exact (peek_poke_of_ne _ _ no14).trans (peek_poke_of_ne _ _ no13)

end HackPlatform.Ram
