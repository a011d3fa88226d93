import HackPlatform.Machine.Run

/-!
# Steps in a row

`advance` is the plain iterate of `step`: no limit is looked at and no halt is recognised, so it
speaks about any stretch of a run. Stretches are put together with `advance_trans`, and the counts
add up.
-/

namespace HackPlatform.Machine

variable {rom : Rom} {m m' m'' : Machine}

/-- The state after a number of steps, or the crash that prevents one of them. -/
def advance (rom : Rom) : Nat → Machine → Except Crash Machine
  | 0, m => .ok m
  | n + 1, m => (step rom m).bind (advance rom n)

@[simp] theorem advance_zero (rom : Rom) (m : Machine) : advance rom 0 m = .ok m := rfl

theorem advance_succ (rom : Rom) (n : Nat) (m : Machine) :
    advance rom (n + 1) m = (step rom m).bind (advance rom n) := rfl

/-- One step more at the front. -/
theorem advance_step {n : Nat} (h : step rom m = .ok m') :
    advance rom (n + 1) m = advance rom n m' := by
  rw [advance_succ, h]
  rfl

theorem advance_one (h : step rom m = .ok m') : advance rom 1 m = .ok m' :=
  advance_step h

/-- Two stretches, one after the other. -/
theorem advance_trans {a b : Nat} (h : advance rom a m = .ok m')
    (h' : advance rom b m' = .ok m'') : advance rom (a + b) m = .ok m'' := by
  induction a generalizing m with
  | zero =>
    cases h
    rwa [Nat.zero_add]
  | succ a ih =>
    rw [Nat.succ_add, advance_succ]
    rw [advance_succ] at h
    cases hs : step rom m with
    | error crash =>
      rw [hs] at h
      cases h
    | ok next =>
      rw [hs] at h
      exact ih h

/-- What follows some steps is the rest of more steps. -/
theorem advance_sub {a b : Nat} {m'' : Machine} (le : a ≤ b) (h : m.advance rom a = .ok m')
    (h' : m.advance rom b = .ok m'') : m'.advance rom (b - a) = .ok m'' := by
  induction a generalizing m b with
  | zero =>
    cases h
    exact h'
  | succ a ih =>
    obtain ⟨b, rfl⟩ := Nat.exists_eq_add_of_le' (Nat.le_trans (Nat.succ_pos a) le)
    cases stepped : step rom m with
    | error crash =>
      rw [advance_succ, stepped] at h
      cases h
    | ok next =>
      rw [advance_step stepped] at h h'
      rw [Nat.succ_sub_succ]
      exact ih (Nat.le_of_succ_le_succ le) h h'

/-- Where an instruction stands, it is the one that a step executes. -/
theorem step_of_instr? {i : Instr} (h : rom.instr? m.pc = some i) :
    step rom m = exec { m with pc := m.pc + 1 } i := by
  unfold Rom.instr? at h
  obtain ⟨word, hw, hi⟩ := Option.bind_eq_some_iff.1 h
  simp only [step, hw, hi]

/-- After a number of steps the machine is at an address with a memory, whatever A and D hold. -/
def Lands (rom : Rom) (m : Machine) (n : Nat) (pc : UInt16) (ram : Ram) : Prop :=
  ∃ a d, m.advance rom n = .ok ⟨pc, a, d, ram⟩

theorem Lands.refl (rom : Rom) (m : Machine) : Lands rom m 0 m.pc m.ram :=
  ⟨m.a, m.d, rfl⟩

theorem lands_of_advance {n : Nat} (h : m.advance rom n = .ok m') : Lands rom m n m'.pc m'.ram :=
  ⟨m'.a, m'.d, h⟩

/-- A stretch before another. -/
theorem Lands.after {a b : Nat} {pc : UInt16} {ram : Ram} (h : m.advance rom a = .ok m')
    (h' : Lands rom m' b pc ram) : Lands rom m (a + b) pc ram := by
  obtain ⟨x, y, run⟩ := h'
  exact ⟨x, y, advance_trans h run⟩

theorem Lands.trans {a b : Nat} {p pc : UInt16} {r ram : Ram} (h : Lands rom m a p r)
    (h' : ∀ x y, Lands rom ⟨p, x, y, r⟩ b pc ram) : Lands rom m (a + b) pc ram := by
  obtain ⟨x, y, run⟩ := h
  exact (h' x y).after run

/-- For a number of steps the machine is at the `length` addresses from `start` on. -/
def Stays (rom : Rom) (m : Machine) (n : Nat) (start : UInt16) (length : Nat) : Prop :=
  ∀ j < n, ∀ between, m.advance rom j = .ok between →
    ∃ i < length, between.pc = start + i.toUInt16

theorem stays_zero {start : UInt16} {length : Nat} : Stays rom m 0 start length :=
  fun j none => absurd none (Nat.not_lt_zero j)

/-- A stretch before another. -/
theorem Stays.after {a b : Nat} {start : UInt16} {length : Nat} (first : Stays rom m a start length)
    (h : m.advance rom a = .ok m') (more : Stays rom m' b start length) :
    Stays rom m (a + b) start length := by
  intro j small between there
  by_cases before : j < a
  · exact first j before between there
  · exact more (j - a) (by omega) between (advance_sub (Nat.not_lt.1 before) h there)

/-- One step is made from where the machine is. -/
theorem stays_one {start : UInt16} {length i : Nat} (here : m.pc = start + i.toUInt16)
    (small : i < length) : Stays rom m 1 start length := by
  intro j first between there
  obtain rfl : j = 0 := Nat.lt_one_iff.1 first
  cases there
  exact ⟨i, small, here⟩

end HackPlatform.Machine
