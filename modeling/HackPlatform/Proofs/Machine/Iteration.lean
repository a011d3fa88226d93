import HackPlatform.Proofs.Machine.Advance

/-!
# Runs as bounded iteration

A run is the iterate of `step` up to the first state at which it rests or crashes, and the limit
does nothing but cut it: `run_iff` says what a result with a given number of steps means, in both
directions. That a larger limit changes no result but a cut one, and that a run can be made in two
parts, follow from it and from the equations for one step.
-/

namespace HackPlatform

namespace Rom

variable {rom : Rom} {pc : UInt16}

/-- How a run ends where it makes no further step, whatever its limit. -/
def rest? (rom : Rom) (pc : UInt16) : Option Halt :=
  if rom.size ≤ pc.toNat then some .endOfProgram
  else if rom.isSelfLoop pc then some (.selfLoop pc)
  else none

/-- A word that is an instruction lies in the program. -/
theorem lt_size_of_instr? {i : Instr} (h : rom.instr? pc = some i) : pc.toNat < rom.size := by
  obtain ⟨word, there, -⟩ := Option.bind_eq_some_iff.1 h
  exact (Array.getElem?_eq_some_iff.1 there).1

/-- The load and the jump of a loop. -/
theorem isSelfLoop_iff :
    rom.isSelfLoop pc = true ↔ rom.instr? pc = some (.address pc) ∧
      ∃ dest comp, rom.instr? (pc + 1) = some (.compute dest comp .always) ∧
        dest.isNone = true := by
  rw [isSelfLoop, Bool.and_eq_true, decide_eq_true_iff]
  constructor
  · rintro ⟨load, jump⟩
    refine ⟨load, ?_⟩
    split at jump
    · next dest comp there => exact ⟨dest, comp, there, jump⟩
    · cases jump
  · rintro ⟨load, dest, comp, there, dropped⟩
    rw [there]
    exact ⟨load, dropped⟩

theorem rest?_eq_endOfProgram_iff : rom.rest? pc = some .endOfProgram ↔ rom.size ≤ pc.toNat := by
  unfold rest?
  split
  · next outside => exact iff_of_true rfl outside
  · next inside =>
    refine iff_of_false ?_ inside
    split <;> intro h <;> cases h

theorem rest?_eq_selfLoop_iff {loop : UInt16} :
    rom.rest? pc = some (.selfLoop loop) ↔ loop = pc ∧ rom.isSelfLoop pc = true := by
  unfold rest?
  split
  · next outside =>
    refine iff_of_false (fun h => by cases h) ?_
    rintro ⟨-, loops⟩
    have inside := lt_size_of_instr? (isSelfLoop_iff.1 loops).1
    omega
  · split
    · next loops =>
      constructor
      · intro h
        cases h
        exact ⟨rfl, loops⟩
      · rintro ⟨rfl, -⟩
        rfl
    · next passes => exact iff_of_false (fun h => by cases h) fun h => passes h.2

theorem rest?_ne_stepLimit : rom.rest? pc ≠ some .stepLimit := by
  unfold rest?
  split
  · intro h
    cases h
  · split <;> intro h <;> cases h

/-- A run goes on inside the program, unless it is at a loop. -/
theorem rest?_eq_none_iff :
    rom.rest? pc = none ↔ pc.toNat < rom.size ∧ rom.isSelfLoop pc = false := by
  unfold rest?
  split
  · next outside => exact iff_of_false (fun h => by cases h) fun h => by omega
  · next inside =>
    rw [Nat.not_le] at inside
    split
    · next loops => exact iff_of_false (fun h => by cases h) fun h => by simp [loops] at h
    · next passes => exact iff_of_true rfl ⟨inside, Bool.eq_false_iff.2 passes⟩

end Rom

/-- The result with steps counted that were done before. -/
def RunResult.after (done : Nat) (r : RunResult) : RunResult :=
  { r with steps := done + r.steps }

theorem RunResult.after_after (a b : Nat) (r : RunResult) :
    (r.after b).after a = r.after (a + b) := by
  rw [after, after, after, Nat.add_assoc]

namespace Machine

variable {rom : Rom} {m s : Machine} {k limit : Nat}

theorem runOn_eq (done : Nat) (m : Machine) (limit : Nat) :
    runOn rom done m limit = (runOn rom 0 m limit).after done := by
  induction limit generalizing m done with
  | zero => rfl
  | succ limit ih =>
    simp only [runOn]
    split
    · rfl
    · split
      · rfl
      · cases step rom m with
        | error crash => rfl
        | ok next =>
          dsimp only
          rw [ih (done + 1), ih (0 + 1)]
          simp only [RunResult.after, Nat.add_assoc, Nat.zero_add]

theorem run_zero (rom : Rom) (m : Machine) : run rom m 0 = ⟨m, 0, .ok .stepLimit⟩ := rfl

theorem run_of_rest {h : Halt} (rests : rom.rest? m.pc = some h) :
    run rom m (limit + 1) = ⟨m, 0, .ok h⟩ := by
  unfold Rom.rest? at rests
  simp only [run, runOn]
  split at rests
  · next outside =>
    cases rests
    rw [if_pos outside]
  · next inside =>
    rw [if_neg inside]
    split at rests
    · next loops =>
      cases rests
      rw [if_pos loops]
    · cases rests

/-- Where a run does not rest, it makes a step. -/
theorem run_of_awake (awake : rom.rest? m.pc = none) :
    run rom m (limit + 1) =
      match step rom m with
      | .error crash => ⟨crash.machine, 0, .error crash.trap⟩
      | .ok next => (run rom next limit).after 1 := by
  obtain ⟨inside, passes⟩ := Rom.rest?_eq_none_iff.1 awake
  simp only [run, runOn]
  rw [if_neg (by omega), if_neg (by simp [passes])]
  cases step rom m with
  | error crash => rfl
  | ok next => exact runOn_eq 1 next limit

theorem run_of_crash {crash : Crash} (awake : rom.rest? m.pc = none)
    (h : step rom m = .error crash) :
    run rom m (limit + 1) = ⟨crash.machine, 0, .error crash.trap⟩ := by
  rw [run_of_awake awake, h]

theorem run_of_step {next : Machine} (awake : rom.rest? m.pc = none)
    (h : step rom m = .ok next) : run rom m (limit + 1) = (run rom next limit).after 1 := by
  rw [run_of_awake awake, h]

/-! ## Walks -/

/-- A number of steps lead from one state to another, and no state in front of one of them is a
place to rest. -/
structure Walks (rom : Rom) (m : Machine) (k : Nat) (s : Machine) : Prop where
  arrives : m.advance rom k = .ok s
  awake : ∀ j < k, ∀ between, m.advance rom j = .ok between → rom.rest? between.pc = none

theorem walks_zero : Walks rom m 0 s ↔ s = m := by
  constructor
  · rintro ⟨arrives, -⟩
    cases arrives
    rfl
  · rintro rfl
    exact ⟨rfl, fun j none => absurd none (Nat.not_lt_zero j)⟩

theorem walks_succ :
    Walks rom m (k + 1) s ↔
      rom.rest? m.pc = none ∧ ∃ next, step rom m = .ok next ∧ Walks rom next k s := by
  constructor
  · rintro ⟨arrives, awake⟩
    refine ⟨awake 0 (Nat.succ_pos k) m rfl, ?_⟩
    cases h : step rom m with
    | error crash =>
      rw [advance_succ, h] at arrives
      cases arrives
    | ok next =>
      refine ⟨next, rfl, ?_, ?_⟩
      · rwa [advance_step h] at arrives
      · intro j small between there
        apply awake (j + 1) (Nat.succ_lt_succ small) between
        rwa [advance_step h]
  · rintro ⟨first, next, h, arrives, awake⟩
    refine ⟨(advance_step h).trans arrives, ?_⟩
    intro j small between there
    cases j with
    | zero =>
      cases there
      exact first
    | succ j =>
      rw [advance_step h] at there
      exact awake j (Nat.lt_of_succ_lt_succ small) between there

/-- How a run with a limit ends behind a walk of `k` steps to `s`, and in which state: no further
step is allowed, the walk has come to a place to rest, or the next step is impossible. -/
inductive Ends (rom : Rom) (limit k : Nat) (s : Machine) : Machine → Except Trap Halt → Prop
  | cut : k = limit → Ends rom limit k s s (.ok .stepLimit)
  | rest {h : Halt} : k < limit → rom.rest? s.pc = some h → Ends rom limit k s s (.ok h)
  | crash {crash : Crash} : k < limit → rom.rest? s.pc = none → step rom s = .error crash →
    Ends rom limit k s crash.machine (.error crash.trap)

theorem ends_succ {s' : Machine} {ending : Except Trap Halt} :
    Ends rom (limit + 1) (k + 1) s s' ending ↔ Ends rom limit k s s' ending := by
  constructor
  · intro h
    cases h with
    | cut all => exact .cut (Nat.succ.inj all)
    | rest few rests => exact .rest (Nat.lt_of_succ_lt_succ few) rests
    | crash few awake stuck => exact .crash (Nat.lt_of_succ_lt_succ few) awake stuck
  · intro h
    cases h with
    | cut all => exact .cut (congrArg Nat.succ all)
    | rest few rests => exact .rest (Nat.succ_lt_succ few) rests
    | crash few awake stuck => exact .crash (Nat.succ_lt_succ few) awake stuck

/-- No end comes behind more steps than the limit. -/
theorem Ends.le {s' : Machine} {ending : Except Trap Halt} (h : Ends rom limit k s s' ending) :
    k ≤ limit := by
  cases h with
  | cut all => exact Nat.le_of_eq all
  | rest few => exact Nat.le_of_lt few
  | crash few => exact Nat.le_of_lt few

/-- A run walks to its end. -/
theorem exists_walks (rom : Rom) (m : Machine) (limit : Nat) :
    ∃ s, Walks rom m (run rom m limit).steps s ∧
      Ends rom limit (run rom m limit).steps s (run rom m limit).machine
        (run rom m limit).ending := by
  induction limit generalizing m with
  | zero => exact ⟨m, walks_zero.2 rfl, .cut rfl⟩
  | succ limit ih =>
    cases resting : rom.rest? m.pc with
    | some h =>
      rw [run_of_rest resting]
      exact ⟨m, walks_zero.2 rfl, .rest (Nat.succ_pos limit) resting⟩
    | none =>
      cases stepped : step rom m with
      | error crash =>
        rw [run_of_crash resting stepped]
        exact ⟨m, walks_zero.2 rfl, .crash (Nat.succ_pos limit) resting stepped⟩
      | ok next =>
        obtain ⟨s, walk, ends⟩ := ih next
        rw [run_of_step resting stepped, RunResult.after, Nat.add_comm]
        exact ⟨s, walks_succ.2 ⟨resting, next, stepped, walk⟩, ends_succ.2 ends⟩

/-- The end behind a walk is the run's. The induction is on the steps of the walk, each of which
the run makes because the walk does not rest. -/
theorem run_of_walks {s' : Machine} {ending : Except Trap Halt} (walk : Walks rom m k s)
    (ends : Ends rom limit k s s' ending) : run rom m limit = ⟨s', k, ending⟩ := by
  induction k generalizing m limit with
  | zero =>
    cases walks_zero.1 walk
    cases ends with
    | cut all =>
      subst all
      exact run_zero rom _
    | rest few rests =>
      obtain ⟨limit, rfl⟩ := Nat.exists_eq_succ_of_ne_zero (Nat.ne_of_gt few)
      exact run_of_rest rests
    | crash few awake stuck =>
      obtain ⟨limit, rfl⟩ := Nat.exists_eq_succ_of_ne_zero (Nat.ne_of_gt few)
      exact run_of_crash awake stuck
  | succ k ih =>
    obtain ⟨awake, next, stepped, walk⟩ := walks_succ.1 walk
    obtain ⟨limit, rfl⟩ := Nat.exists_eq_add_of_le' (Nat.le_trans (Nat.succ_pos k) ends.le)
    rw [run_of_step awake stepped, ih walk (ends_succ.1 ends), RunResult.after, Nat.add_comm]

/-- A run is a walk, and the end that comes behind it. -/
theorem run_iff {s' : Machine} {ending : Except Trap Halt} :
    run rom m limit = ⟨s', k, ending⟩ ↔
      ∃ s, Walks rom m k s ∧ Ends rom limit k s s' ending := by
  constructor
  · intro h
    have walks := exists_walks rom m limit
    rwa [h] at walks
  · rintro ⟨s, walk, ends⟩
    exact run_of_walks walk ends

/-- A run that was not cut is the same under every larger limit. -/
theorem run_eq_of_le {larger : Nat} (le : limit ≤ larger)
    (finished : (run rom m limit).ending ≠ .ok .stepLimit) :
    run rom m larger = run rom m limit := by
  cases result : run rom m limit with
  | mk s' k ending =>
    rw [result] at finished
    obtain ⟨s, walk, ends⟩ := run_iff.1 result
    apply run_of_walks walk
    cases ends with
    | cut => exact absurd rfl finished
    | rest few rests => exact .rest (Nat.lt_of_lt_of_le few le) rests
    | crash few awake stuck => exact .crash (Nat.lt_of_lt_of_le few le) awake stuck

/-- A run that was cut goes on as one with a larger limit. -/
theorem run_add {more : Nat} (cut : (run rom m limit).ending = .ok .stepLimit) :
    run rom m (limit + more) = (run rom (run rom m limit).machine more).after limit := by
  induction limit generalizing m with
  | zero =>
    rw [Nat.zero_add, run_zero, RunResult.after, Nat.zero_add]
  | succ limit ih =>
    rw [Nat.succ_add]
    cases resting : rom.rest? m.pc with
    | some h =>
      rw [run_of_rest resting] at cut
      cases cut
      exact absurd resting Rom.rest?_ne_stepLimit
    | none =>
      cases stepped : step rom m with
      | error crash =>
        rw [run_of_crash resting stepped] at cut
        cases cut
      | ok next =>
        rw [run_of_step resting stepped] at cut ⊢
        rw [run_of_step resting stepped, ih cut, RunResult.after_after, Nat.add_comm]
        rfl

/-! ## The meaning of a run -/

end Machine

/-- When a run halts in this way behind `k` steps of its limit, at a program counter. -/
def Halt.Follows (rom : Rom) (limit k : Nat) (pc : UInt16) : Halt → Prop
  | endOfProgram => k < limit ∧ rom.size ≤ pc.toNat
  | selfLoop loop => k < limit ∧ loop = pc ∧ rom.isSelfLoop pc = true
  | stepLimit => k = limit

namespace Machine

variable {rom : Rom} {m s : Machine} {k limit : Nat}

theorem ends_ok_iff {s' : Machine} {h : Halt} :
    Ends rom limit k s s' (.ok h) ↔ s' = s ∧ h.Follows rom limit k s.pc := by
  constructor
  · intro ends
    cases ends with
    | cut all => exact ⟨rfl, all⟩
    | rest few rests =>
      refine ⟨rfl, ?_⟩
      cases h with
      | endOfProgram => exact ⟨few, Rom.rest?_eq_endOfProgram_iff.1 rests⟩
      | selfLoop loop => exact ⟨few, Rom.rest?_eq_selfLoop_iff.1 rests⟩
      | stepLimit => exact absurd rests Rom.rest?_ne_stepLimit
  · rintro ⟨rfl, follows⟩
    cases h with
    | endOfProgram => exact .rest follows.1 (Rom.rest?_eq_endOfProgram_iff.2 follows.2)
    | selfLoop loop => exact .rest follows.1 (Rom.rest?_eq_selfLoop_iff.2 follows.2)
    | stepLimit => exact .cut follows

theorem ends_error_iff {s' : Machine} {trap : Trap} :
    Ends rom limit k s s' (.error trap) ↔
      k < limit ∧ rom.rest? s.pc = none ∧ step rom s = .error ⟨trap, s'⟩ := by
  constructor
  · intro ends
    cases ends with
    | crash few awake stuck => exact ⟨few, awake, stuck⟩
  · rintro ⟨few, awake, stuck⟩
    exact .crash few awake stuck

/-- A run halts behind exactly those steps that lead to the first place to rest, or to the limit,
and traps at the first step that is impossible; a limit changes no other result than a cut one; and
a run that was cut and one from where it stopped are one run. -/
theorem run_iterates (rom : Rom) (m : Machine) :
    (∀ limit k s h, run rom m limit = ⟨s, k, .ok h⟩ ↔
      k ≤ limit ∧ Walks rom m k s ∧ h.Follows rom limit k s.pc) ∧
    (∀ limit k s trap, run rom m limit = ⟨s, k, .error trap⟩ ↔
      k < limit ∧ ∃ last, Walks rom m k last ∧ rom.rest? last.pc = none ∧
        step rom last = .error ⟨trap, s⟩) ∧
    (∀ limit larger, limit ≤ larger → (run rom m limit).ending ≠ .ok .stepLimit →
      run rom m larger = run rom m limit) ∧
    ∀ limit more, (run rom m limit).ending = .ok .stepLimit →
      run rom m (limit + more) = (run rom (run rom m limit).machine more).after limit := by
  refine ⟨fun limit k s h => ?_, fun limit k s trap => ?_, ?_, ?_⟩
  · rw [run_iff]
    constructor
    · rintro ⟨last, walk, ends⟩
      obtain ⟨rfl, follows⟩ := ends_ok_iff.1 ends
      exact ⟨ends.le, walk, follows⟩
    · rintro ⟨-, walk, follows⟩
      exact ⟨s, walk, ends_ok_iff.2 ⟨rfl, follows⟩⟩
  · rw [run_iff]
    constructor
    · rintro ⟨last, walk, ends⟩
      obtain ⟨few, awake, stuck⟩ := ends_error_iff.1 ends
      exact ⟨few, last, walk, awake, stuck⟩
    · rintro ⟨few, last, walk, awake, stuck⟩
      exact ⟨last, walk, ends_error_iff.2 ⟨few, awake, stuck⟩⟩
  · intro limit larger le finished
    exact run_eq_of_le le finished
  · intro limit more cut
    exact run_add cut

/-- A program that counts in D for ever: its jump goes to the instruction in front of the load. -/
def counter : Rom := ⟨#[0xE7D0, 0x0000, 0xEA87]⟩

/-- A program of one load, which has ended when one step is done. -/
def oneLoad : Rom := ⟨#[0x0005]⟩

/-- A run that is cut and goes on; and one whose limit is just what the program needs, so that its
end is seen under the next larger limit only. -/
theorem run_iterates_counter :
    run counter (start (.zeros 0)) (12 + 18) = ⟨⟨0, 0, 10, .zeros 0⟩, 30, .ok .stepLimit⟩ ∧
    run counter (start (.zeros 0)) (12 + 18) =
      (run counter ⟨0, 0, 4, .zeros 0⟩ 18).after 12 ∧
    run oneLoad (start (.zeros 0)) 1 = ⟨⟨1, 5, 0, .zeros 0⟩, 1, .ok .stepLimit⟩ ∧
    run oneLoad (start (.zeros 0)) 2 = ⟨⟨1, 5, 0, .zeros 0⟩, 1, .ok .endOfProgram⟩ ∧
    run oneLoad (start (.zeros 0)) 1000 = run oneLoad (start (.zeros 0)) 2 := by
  have cut : run counter (start (.zeros 0)) 12 = ⟨⟨0, 0, 4, .zeros 0⟩, 12, .ok .stepLimit⟩ := by
    rfl
  have ended : run oneLoad (start (.zeros 0)) 2 = ⟨⟨1, 5, 0, .zeros 0⟩, 1, .ok .endOfProgram⟩ := by
    rfl
  refine ⟨rfl, ?_, rfl, ended, ?_⟩
  · have more := (run_iterates counter (start (.zeros 0))).2.2.2 12 18 (by rw [cut])
    rwa [cut] at more
  · refine (run_iterates oneLoad (start (.zeros 0))).2.2.1 2 1000 (by decide) ?_
    rw [ended]
    intro same
    cases same

end Machine

end HackPlatform
