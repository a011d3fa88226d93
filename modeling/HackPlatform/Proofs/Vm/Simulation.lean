import HackPlatform.Proofs.Vm.Blocks
import HackPlatform.Proofs.Vm.Statics

/-!
# Translation preserves meaning

The image of a closed translation does what the stack machine does: from the start of a block,
whatever A and D hold, the machine gets to the start of the block of the next command, with the
memory that the command leaves. By induction this holds of whole runs.
-/

namespace HackPlatform.Vm

open Machine (Lands)

/-- The layout of an image. -/
def layoutOf (sites : List Site) (p : Asm.Program) : Layout :=
  ⟨startOf sites, fun unit index => addressOf p (.static unit index)⟩

/-- The machine stands in front of the block of the next command, and the memories agree. -/
structure Matches (l : Layout) (m : Machine) (s : State) : Prop where
  pc : m.pc = l.start s.next
  ram : m.ram.Agrees s.ram

/-- No function and no label of the source is written like a static cell that is used. -/
def Apart (sites : List Site) : Prop :=
  ∀ k unit index, AccessesAt sites k unit index → ¬Clashes sites unit index

theorem labelPlace?_eq_some {sites : List Site} {scope : Scope} {name : String} {k : Nat}
    (h : labelPlace? sites scope name = some k) :
    ∃ t, sites[k]? = some t ∧ t.task = .command (.label name) ∧ scope.SameLabels t.scope := by
  obtain ⟨inside, there, -⟩ := List.findIdx?_eq_some_iff_getElem.1 h
  exact ⟨sites[k], List.getElem?_eq_getElem inside, of_decide_eq_true there⟩

theorem functionPlace?_eq_some {sites : List Site} {name : String} {k : Nat}
    (h : functionPlace? sites name = some k) :
    ∃ locals, TaskAt sites k (.command (.function name locals)) := by
  obtain ⟨inside, there, -⟩ := List.findIdx?_eq_some_iff_getElem.1 h
  unfold Task.enters at there
  split at there
  · next f locals task =>
    have same : f = name := of_decide_eq_true there
    exact ⟨locals, sites[k], List.getElem?_eq_getElem inside, same ▸ task⟩
  · cases there

theorem exists_labelPlace {sites : List Site} {scope : Scope} {name : String}
    (h : ∃ t ∈ sites, t.task = .command (.label name) ∧ scope.SameLabels t.scope) :
    ∃ k, labelPlace? sites scope name = some k := by
  apply Option.isSome_iff_exists.1
  rw [labelPlace?, List.findIdx?_isSome, List.any_eq_true]
  obtain ⟨t, member, label⟩ := h
  exact ⟨t, member, decide_eq_true label⟩

theorem exists_functionPlace {sites : List Site} {name : String}
    (h : ∃ k locals, TaskAt sites k (.command (.function name locals))) :
    ∃ k, functionPlace? sites name = some k := by
  apply Option.isSome_iff_exists.1
  rw [functionPlace?, List.findIdx?_isSome, List.any_eq_true]
  obtain ⟨k, locals, t, there, task⟩ := h
  refine ⟨t, List.mem_of_getElem? there, ?_⟩
  rw [task]
  exact decide_eq_true rfl

theorem returnPlace?_eq_some {l : Layout} {sites : List Site} {back : UInt16} {k : Nat}
    (h : returnPlace? l sites back = some k) : l.start k = back := by
  have chosen := List.find?_some h
  exact of_decide_eq_true chosen

/-- Only a return may lead to no place. -/
theorem Closed.exists_next {sites : List Site} (closed : Closed sites) {k : Nat} {s : Site}
    (site : sites[k]? = some s) (falls : s.task ≠ .command .ret) (l : Layout) (ram : Ram) :
    ∃ next, s.next? l sites k ram = some next := by
  have member := List.mem_of_getElem? site
  obtain ⟨scope, note, task⟩ := s
  cases task with
  | setStack base => exact ⟨k + 1, rfl⟩
  | command c =>
    cases c with
    | goto name => exact exists_labelPlace (closed.jumps _ member name (.inl rfl))
    | ifGoto name =>
      by_cases zero : ram.top = 0
      · exact ⟨k + 1, if_pos zero⟩
      · obtain ⟨next, there⟩ := exists_labelPlace (closed.jumps _ member name (.inr rfl))
        exact ⟨next, (if_neg zero).trans there⟩
    | call f args => exact exists_functionPlace (closed.calls k f args ⟨_, site, rfl⟩)
    | ret => exact absurd rfl falls
    | _ => exact ⟨k + 1, rfl⟩

namespace Image

variable {sites : List Site} {p : Asm.Program} (image : Image sites p)

include image

/-- Where no label is written like a static cell, every command has its static cell in data
memory. -/
theorem staticBound (apart : Apart sites) {k : Nat} {s : Site} (site : sites[k]? = some s)
    (c : Command) (task : s.task = .command c) :
    c.StaticBound (layoutOf sites p) s.scope.unit := by
  intro index used
  have access : AccessesAt sites k s.scope.unit index := by
    refine ⟨s, site, rfl, ?_⟩
    rw [task]
    exact used.imp (congrArg Task.command) (congrArg Task.command)
  obtain ⟨low, high⟩ := image.variable_bound ((image.isVariable_iff access).2 (apart _ _ _ access))
  exact ⟨low, UInt16.lt_trans high (by decide)⟩

/-- A label's name stands for the place that a jump goes to. -/
theorem address_label_of_place {scope : Scope} {name : String} {next : Nat}
    (h : labelPlace? sites scope name = some next) :
    addressOf p (scope.labelSymbol name) = startOf sites next := by
  obtain ⟨⟨scope', note, task⟩, site, rfl, shared⟩ := labelPlace?_eq_some h
  have stands := image.stands site
  rw [shared.labelSymbol]
  exact stands.1

/-- The place that comes after a command is where its block leads to. -/
theorem start_next {k next : Nat} {s : Site} {ram : Ram}
    (h : s.next? (layoutOf sites p) sites k ram = some next) :
    startOf sites next = s.exit (addressOf p) (startOf sites (k + 1)) ram := by
  obtain ⟨scope, note, task⟩ := s
  cases task with
  | setStack base =>
    cases h
    rfl
  | command c =>
    cases c with
    | goto name => exact (image.address_label_of_place h).symm
    | ifGoto name =>
      change (if ram.top = 0 then some (k + 1) else labelPlace? sites scope name) = some next at h
      show _ = if ram.top = 0 then startOf sites (k + 1) else addressOf p (scope.labelSymbol name)
      by_cases zero : ram.top = 0
      · rw [if_pos zero] at h ⊢
        cases h
        rfl
      · rw [if_neg zero] at h ⊢
        exact (image.address_label_of_place h).symm
    | call f args =>
      obtain ⟨locals, entry⟩ := functionPlace?_eq_some h
      exact (image.address_function entry).symm
    | ret => exact returnPlace?_eq_some h
    | _ =>
      cases h
      rfl

/-- The address that a call saves stands for the place behind the call. -/
theorem returnPlace?_call {k : Nat} {f : String} {args : UInt16}
    (call : TaskAt sites k (.command (.call f args))) :
    returnPlace? (layoutOf sites p) sites (startOf sites (k + 1)) = some (k + 1) := by
  obtain ⟨⟨scope, note, task⟩, site, rfl⟩ := call
  have inside : k < sites.length := (List.getElem?_eq_some_iff.1 site).1
  rw [returnPlace?, List.find?_range_eq_some]
  refine ⟨decide_eq_true rfl, List.mem_range.2 (Nat.succ_lt_succ inside), fun j small => ?_⟩
  -- A call has words, so no place up to it starts where it ends.
  have before := image.startOf_mono (Nat.le_of_lt_succ small)
  have after : (startOf sites k).toNat < (startOf sites (k + 1)).toNat := by
    rw [image.toNat_startOf, image.toNat_startOf, wordCount_take_succ site]
    exact Nat.lt_add_of_pos_right (Nat.succ_pos _)
  have apart : startOf sites j ≠ startOf sites (k + 1) := by
    intro same
    rw [same] at before
    omega
  show (!decide (startOf sites j = startOf sites (k + 1))) = true
  rw [decide_eq_false apart]
  rfl

/-- The machine carries out the block of a place from its start. -/
theorem carries (apart : Apart sites) {k : Nat} {s : Site} (site : sites[k]? = some s) {m : Machine}
    (full : m.ram.Full) (pc : m.pc = startOf sites k)
    (safe : ∀ cell ∈ s.cells m.ram, 16 ≤ cell ∧ cell < 32768) :
    Carries ⟨p.words⟩ m s.code (s.exit (addressOf p) (startOf sites (k + 1)) m.ram)
      (s.effect (layoutOf sites p) (startOf sites (k + 1)) m.ram) := by
  have stands := image.stands site
  have allowed := (image.sound_at site).allowed
  have static := image.staticBound apart site
  rw [startOf_succ site]
  rw [← pc] at stands ⊢
  obtain ⟨scope, note, task⟩ := s
  cases task with
  | setStack base =>
    have lands := Code.setStack_lands image.registers full stands
    exact carries_of_lands lands (Ram.full_set.2 full).agrees_self
  | command c =>
    exact Command.carries image.registers full (fun _ => rfl) allowed (static c rfl) stands safe

/-- The scratch registers make no difference to what is carried out. -/
theorem carries_of_matches (apart : Apart sites) {m : Machine} {s : State} {site : Site}
    (matched : Matches (layoutOf sites p) m s) (safe : s.Safe sites)
    (here : sites[s.next]? = some site) :
    Carries ⟨p.words⟩ m site.code (site.exit (addressOf p) (startOf sites (s.next + 1)) s.ram)
      (site.effect (layoutOf sites p) (startOf sites (s.next + 1)) s.ram) := by
  -- What is safe is read off the stack machine's memory, and the block runs on the machine's.
  have cells : ∀ cell ∈ site.cells m.ram, 16 ≤ cell ∧ cell < 32768 := by
    rw [Site.cells_agree matched.ram]
    exact safe site here
  obtain ⟨n, ram, lands, agrees, moves⟩ :=
    image.carries apart here matched.ram.left matched.pc cells
  rw [Site.exit_agrees matched.ram cells] at lands
  refine ⟨n, ram, lands, agrees.trans ?_, moves⟩
  exact Site.effect_agrees matched.ram (image.sound_at here).allowed (image.staticBound apart here)
    cells

/-- A safe step is carried out. -/
theorem step_carried (apart : Apart sites) {m : Machine} {s s' : State}
    (matched : Matches (layoutOf sites p) m s) (safe : s.Safe sites)
    (stepped : step (layoutOf sites p) sites s = some s') :
    ∃ n m', m.advance ⟨p.words⟩ n = .ok m' ∧ Matches (layoutOf sites p) m' s' ∧
      ∀ site, sites[s.next]? = some site → 0 < n ∨ Asm.wordCount site.code = 0 := by
  obtain ⟨site, here, there, effect⟩ := step_eq_some.1 stepped
  obtain ⟨n, ram, ⟨a, d, run⟩, agrees, moves⟩ := image.carries_of_matches apart matched safe here
  refine ⟨n, _, run, ⟨(image.start_next there).symm, effect ▸ agrees⟩, fun site' here' => ?_⟩
  rw [here] at here'
  cases here'
  exact moves

/-- A run of safe steps is carried out. -/
theorem run_carried (apart : Apart sites) {m : Machine} {s s' : State}
    (matched : Matches (layoutOf sites p) m s) (reached : Reaches (layoutOf sites p) sites s s') :
    ∃ n m', m.advance ⟨p.words⟩ n = .ok m' ∧ Matches (layoutOf sites p) m' s' := by
  induction reached generalizing m with
  | refl s => exact ⟨0, m, rfl, matched⟩
  | next safe stepped _ ih =>
    obtain ⟨n, m', first, matched', -⟩ := image.step_carried apart matched safe stepped
    obtain ⟨k, m'', rest, last⟩ := ih matched'
    exact ⟨n + k, m'', Machine.advance_trans first rest, last⟩

end Image

/-! ## Translations -/

/-- A program does what the stack machine does with the blocks. At its start it is in front of the
first block, and every command but a return has a place that comes after it. A step is carried out,
by at least one instruction if the block has any, and so is a run of safe steps. The address that a
call saves stands for the place behind the call; a return goes to the address in the frame, also
where no block starts. -/
structure Simulates (sites : List Site) (p : Asm.Program) : Prop where
  starts : ∀ ram : Ram, ram.Full → Matches (layoutOf sites p) (.start ram) ⟨0, ram⟩
  progress : ∀ (s : State) (site : Site), sites[s.next]? = some site → site.task ≠ .command .ret →
    ∃ s', step (layoutOf sites p) sites s = some s'
  step : ∀ (m : Machine) (s s' : State), Matches (layoutOf sites p) m s → s.Safe sites →
    step (layoutOf sites p) sites s = some s' →
    ∃ n m', m.advance ⟨p.words⟩ n = .ok m' ∧ Matches (layoutOf sites p) m' s' ∧
      ∀ site, sites[s.next]? = some site → 0 < n ∨ Asm.wordCount site.code = 0
  resumes : ∀ k f args, TaskAt sites k (.command (.call f args)) →
    returnPlace? (layoutOf sites p) sites (startOf sites (k + 1)) = some (k + 1)
  returns : ∀ (m : Machine) (s : State), Matches (layoutOf sites p) m s → s.Safe sites →
    TaskAt sites s.next (.command .ret) →
    ∃ n ram, Lands ⟨p.words⟩ m n (s.ram.peek (s.ram.get .lcl - frameSize)) ram ∧
      ram.Agrees (s.ram.leave (s.ram.get .lcl))
  run : ∀ (m : Machine) (s s' : State), Matches (layoutOf sites p) m s →
    Reaches (layoutOf sites p) sites s s' →
    ∃ n m', m.advance ⟨p.words⟩ n = .ok m' ∧ Matches (layoutOf sites p) m' s'

/-- A closed translation in which no function or label is written like a static cell means, when it
is assembled, what its commands mean. -/
theorem translation_simulates {units : List (String × String)} {bootstrap : Bool} {config : Config}
    {text : String} {p : Asm.Program} (translated : translateSources units bootstrap config = .ok text)
    (assembled : Asm.assemble text = .ok p) (closed : Closed (outline units bootstrap config))
    (apart : Apart (outline units bootstrap config)) :
    Simulates (outline units bootstrap config) p := by
  have image := image_of_translation translated assembled
  constructor
  case starts =>
    intro ram full
    exact ⟨rfl, full.agrees_self⟩
  case progress =>
    intro s site here falls
    obtain ⟨next, there⟩ := closed.exists_next here falls (layoutOf _ p) s.ram
    exact ⟨⟨next, _⟩, step_eq_some.2 ⟨site, here, there, rfl⟩⟩
  case step =>
    intro m s s' matched safe stepped
    exact image.step_carried apart matched safe stepped
  case resumes =>
    intro k f args call
    exact image.returnPlace?_call call
  case returns =>
    rintro m s matched safe ⟨⟨scope, note, task⟩, here, rfl⟩
    obtain ⟨n, ram, lands, agrees, -⟩ := image.carries_of_matches apart matched safe here
    exact ⟨n, ram, lands, agrees⟩
  case run =>
    intro m s s' matched reached
    exact image.run_carried apart matched reached

/-- A program that keeps a word in a static cell and idles. -/
def keeper : List (String × String) :=
  [("Sys", "function Sys.init 0\npush constant 7\npop static 0\nlabel IDLE\ngoto IDLE")]

/-- The blocks of that program with a bootstrap. -/
def keeperSites : List Site :=
  let inside : Scope := ⟨"Sys", some "Sys.init", 1⟩
  [⟨⟨"", none, 0⟩, none, .setStack 256⟩, ⟨⟨"", none, 0⟩, none, .command (.call "Sys.init" 0)⟩,
   ⟨⟨"Sys", none, 1⟩, none, .command (.function "Sys.init" 0)⟩,
   ⟨inside, none, .command (.push .constant 7)⟩, ⟨inside, none, .command (.pop .static 0)⟩,
   ⟨inside, none, .command (.label "IDLE")⟩, ⟨inside, none, .command (.goto "IDLE")⟩]

theorem outline_keeper : outline keeper true ⟨.auto, "Sys.init", 256, false⟩ = keeperSites := by
  decide +kernel

theorem closed_keeper : Closed keeperSites := by
  constructor
  case calls =>
    rintro i f args ⟨s, site, task⟩
    have member := List.mem_of_getElem? site
    simp only [keeperSites, List.mem_cons, List.not_mem_nil, or_false] at member
    rcases member with rfl | rfl | rfl | rfl | rfl | rfl | rfl <;> cases task
    exact ⟨2, 0, _, rfl, rfl⟩
  case jumps =>
    intro s member name task
    simp only [keeperSites, List.mem_cons, List.not_mem_nil, or_false] at member
    rcases member with rfl | rfl | rfl | rfl | rfl | rfl | rfl <;> simp at task
    subst task
    exact ⟨_, List.mem_of_getElem? (i := 5) rfl, rfl, rfl, fun _ => rfl⟩

theorem apart_keeper : Apart keeperSites := by
  rintro k unit index ⟨s, site, rfl, access⟩ ⟨t, member, declares⟩
  have there := List.mem_of_getElem? site
  simp only [keeperSites, List.mem_cons, List.not_mem_nil, or_false] at there member
  rcases there with rfl | rfl | rfl | rfl | rfl | rfl | rfl <;> simp at access
  subst access
  rcases declares with ⟨f, locals, task, alike⟩ | ⟨name, task, alike⟩
  · rcases member with rfl | rfl | rfl | rfl | rfl | rfl | rfl <;> cases task
    exact absurd alike (by decide)
  · rcases member with rfl | rfl | rfl | rfl | rfl | rfl | rfl <;> cases task
    exact absurd alike (by decide)

/-- The machine gets from its start through the bootstrap to the function. -/
theorem translation_simulates_keeper :
    ∃ text p, translateSources keeper true ⟨.auto, "Sys.init", 256, false⟩ = .ok text ∧
      Asm.assemble text = .ok p ∧
      ∃ n m, (Machine.start (.zeros Ram.fullSize)).advance ⟨p.words⟩ n = .ok m ∧
        Matches (layoutOf keeperSites p) m
          ⟨2, ((Ram.zeros Ram.fullSize).set .sp 256).enter (startOf keeperSites 2) frameSize⟩ := by
  obtain ⟨text, p, translated, assembled⟩ :=
    @exists_program keeper true ⟨.auto, "Sys.init", 256, false⟩ (by decide +kernel)
      (by decide +kernel)
  have simulated := translation_simulates translated assembled
    (outline_keeper ▸ closed_keeper) (outline_keeper ▸ apart_keeper)
  rw [outline_keeper] at simulated
  have full : (Ram.zeros Ram.fullSize).Full := Ram.size_zeros _
  have started := simulated.starts _ full
  have base : State.Safe keeperSites ⟨0, Ram.zeros Ram.fullSize⟩ := by
    rintro site here cell used
    cases here
    cases used
  have room (ram : Ram) (stack : ram.get .sp = 256) : State.Safe keeperSites ⟨1, ram⟩ := by
    rintro site here
    cases here
    have frame : (((List.range 5).map fun i => ram.get .sp + i.toUInt16).all fun cell =>
        16 ≤ cell ∧ cell < 32768) = true := by
      rw [stack]
      decide
    intro cell mem
    exact of_decide_eq_true (List.all_eq_true.1 frame cell mem)
  refine ⟨text, p, translated, assembled, simulated.run _ _ _ started
    (.next base ?_ (.next (room _ full.get_set) ?_ (.refl _)))⟩
  · exact step_eq_some.2 ⟨_, rfl, rfl, rfl⟩
  · exact step_eq_some.2 ⟨_, rfl, rfl, rfl⟩

end HackPlatform.Vm
