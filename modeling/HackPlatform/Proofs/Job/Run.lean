import HackPlatform.Proofs.Job.Plan
import HackPlatform.Proofs.Vm.Verdict

/-!
# Running a job

A job takes one step for the bootstrap, if that is wanted, and one for each of its units. Every step
fails or succeeds on its own: what was translated before has no part in it. The job gives the error
of the first step that fails and leaves the tree as it is. If no step fails, the output gets the text
that the units translate to in memory, and no other file changes.
-/

namespace HackPlatform

open Vm (Translator Page translateSources)

/-- The name of the unit in a file: the stem of the file's name. -/
def unitName (path : String) : String :=
  (Path.stem? path).getD ""

/-- The units in files: each with the stem of its file's name and the file's text. -/
def FileTree.Sources (t : FileTree) : List String → List (String × String) → Prop :=
  List.Forall₂ fun path source => source.1 = unitName path ∧ t.readText path = .ok source.2

namespace Job

/-- What a job does before its output is written. -/
inductive Step
  | bootstrap
  | unit (path : String)
  deriving DecidableEq, Repr

/-- The steps of a job in order. -/
def steps (job : Job) (bootstrap : Bool) : List Step :=
  (if bootstrap then [.bootstrap] else []) ++ job.units.map .unit

/-- Why a step fails: the bootstrap alone is refused, a file cannot be read or is no text, or its
text does not translate. -/
inductive Fails (t : FileTree) (config : Vm.Config) : Step → Error → Prop
  | bootstrap {e : Vm.TranslateError} (refused : translateSources [] true config = .error e) :
      Fails t config .bootstrap (.translate e)
  | read {path : String} {e : FileError} (unread : t.readText path = .error e) :
      Fails t config (.unit path) (.file path e)
  | translate {path source : String} {e : Vm.TranslateError} (read : t.readText path = .ok source)
      (refused : translateSources [(unitName path, source)] false config = .error e) :
      Fails t config (.unit path) (.translate e)

/-- The first step that fails does so with an error. -/
def FirstFails (t : FileTree) (config : Vm.Config) (steps : List Step) (e : Error) : Prop :=
  ∃ before step after, steps = before ++ step :: after ∧
    (∀ earlier ∈ before, ∀ e', ¬ Fails t config earlier e') ∧ Fails t config step e

variable {t u : FileTree} {config : Vm.Config} {steps : List Step} {step : Step} {e : Error}

theorem firstFails_cons_iff : FirstFails t config (step :: steps) e ↔
    Fails t config step e ∨
      (∀ e', ¬ Fails t config step e') ∧ FirstFails t config steps e := by
  constructor
  · rintro ⟨before, first, after, cut, passed, fails⟩
    cases before with
    | nil =>
      cases cut
      exact .inl fails
    | cons head before =>
      cases cut
      rw [List.forall_mem_cons] at passed
      exact .inr ⟨passed.1, before, first, after, rfl, passed.2, fails⟩
  · rintro (fails | ⟨passes, before, first, after, rfl, passed, fails⟩)
    · exact ⟨[], step, steps, rfl, by simp, fails⟩
    · exact ⟨step :: before, first, after, rfl, List.forall_mem_cons.2 ⟨passes, passed⟩, fails⟩

/-- Some step fails first if any does. -/
theorem exists_firstFails (mem : step ∈ steps) (fails : Fails t config step e) :
    ∃ first, FirstFails t config steps first := by
  induction steps with
  | nil => cases mem
  | cons head steps ih =>
    by_cases broken : ∃ e', Fails t config head e'
    · obtain ⟨e', here⟩ := broken
      exact ⟨e', firstFails_cons_iff.2 (.inl here)⟩
    · rw [not_exists] at broken
      rcases List.mem_cons.1 mem with rfl | later
      · exact absurd fails (broken e)
      · obtain ⟨first, there⟩ := ih later
        exact ⟨first, firstFails_cons_iff.2 (.inr ⟨broken, there⟩)⟩

/-- A unit is translated or refused as it is on its own. -/
theorem verdict_translateSource (v : Translator Page) (unit source : String) (config : Vm.Config) :
    Vm.verdict (v.translateSource unit source).2 =
      Vm.verdict (translateSources [(unit, source)] false config) := by
  simp only [Vm.verdict_translateSources, Vm.translateOnto, Bool.false_eq_true, if_false]
  rw [← Translator.translateUnits_snd_congr v, Translator.translateUnits]
  cases v.translateSource unit source with
  | mk w result => cases result <;> rfl

/-- The bootstrap is written or refused as it is on its own. -/
theorem verdict_bootstrap (config : Vm.Config) :
    (Translator.new Page.empty config).bootstrap.2 =
      Vm.verdict (translateSources [] true config) := by
  rw [Vm.verdict_translateSources, Vm.translateOnto, if_pos rfl]
  cases (Translator.new Page.empty config).bootstrap with
  | mk w result => cases result <;> rfl

/-- A step fails in one way only. -/
theorem Fails.unique {e' : Error} (h : Fails t config step e) (h' : Fails t config step e') :
    e = e' := by
  cases h with
  | bootstrap refused =>
    cases h' with
    | bootstrap refused' =>
      rw [refused] at refused'
      cases refused'
      rfl
  | read unread =>
    cases h' with
    | read unread' =>
      rw [unread] at unread'
      cases unread'
      rfl
    | translate read' =>
      rw [unread] at read'
      cases read'
  | translate read refused =>
    cases h' with
    | read unread' =>
      rw [read] at unread'
      cases unread'
    | translate read' refused' =>
      rw [read] at read'
      cases read'
      rw [refused] at refused'
      cases refused'
      rfl

theorem not_fails_bootstrap {text : String} (fine : translateSources [] true config = .ok text) :
    ¬ Fails t config .bootstrap e := by
  intro fails
  cases fails with
  | bootstrap refused =>
    rw [fine] at refused
    cases refused

theorem not_fails_unit {path source text : String} (read : t.readText path = .ok source)
    (fine : translateSources [(unitName path, source)] false config = .ok text) :
    ¬ Fails t config (.unit path) e := by
  intro fails
  cases fails with
  | read unread =>
    rw [read] at unread
    cases unread
  | translate found refused =>
    rw [read] at found
    cases found
    rw [fine] at refused
    cases refused

/-- The first file is the end of the translation if its step fails, and is translated if not. -/
theorem run_translateFiles_cons (t : FileTree) (config : Vm.Config) (v : Translator Page)
    (path : String) (paths : List String) :
    (∃ e w, Fails t config (.unit path) e ∧
      (translateFiles v (path :: paths) : StateM FileTree _).run t = ((w, .error e), t)) ∨
    ∃ source n w, (∀ e, ¬ Fails t config (.unit path) e) ∧ t.readText path = .ok source ∧
      v.translateSource (unitName path) source = (w, .ok n) ∧
      (translateFiles v (path :: paths) : StateM FileTree _).run t =
        (translateFiles w paths : StateM FileTree _).run t := by
  rw [translateFiles, run_bind_eq (run_readText t path), ← unitName]
  cases read : t.readText path with
  | error cause => exact .inl ⟨.file path cause, v, .read read, rfl⟩
  | ok source =>
    have alone := verdict_translateSource v (unitName path) source config
    dsimp only
    cases translated : v.translateSource (unitName path) source with
    | mk w result =>
      rw [translated] at alone
      cases result with
      | error cause =>
        have refused := Vm.verdict_eq_error_iff.1 alone.symm
        exact .inl ⟨.translate cause, w, .translate read refused, rfl⟩
      | ok n =>
        obtain ⟨text, fine⟩ := Vm.verdict_eq_ok_iff.1 alone.symm
        exact .inr ⟨source, n, w, fun e => not_fails_unit read fine, rfl, translated, rfl⟩

/-- Files whose steps all pass are translated like their texts in memory. -/
theorem run_translateFiles_ok (v : Translator Page) {paths : List String}
    (passes : ∀ path ∈ paths, ∀ e', ¬ Fails t config (.unit path) e') :
    ∃ sources w, t.Sources paths sources ∧ v.translateUnits sources = (w, .ok ()) ∧
      (translateFiles v paths : StateM FileTree _).run t = ((w, .ok ()), t) := by
  induction paths generalizing v with
  | nil => exact ⟨[], v, .nil, rfl, rfl⟩
  | cons path paths ih =>
    rw [List.forall_mem_cons] at passes
    rcases run_translateFiles_cons t config v path paths with
      ⟨e, w, fails, -⟩ | ⟨source, n, w, -, read, translated, run⟩
    · exact absurd fails (passes.1 e)
    · obtain ⟨sources, w', rest, units, run'⟩ := ih w passes.2
      refine ⟨(unitName path, source) :: sources, w', .cons ⟨rfl, read⟩ rest, ?_, run.trans run'⟩
      rw [Translator.translateUnits, translated]
      exact units

/-- The first file whose step fails ends the translation. -/
theorem run_translateFiles_error (v : Translator Page) {paths : List String}
    (first : FirstFails t config (paths.map .unit) e) :
    ∃ w, (translateFiles v paths : StateM FileTree _).run t = ((w, .error e), t) := by
  induction paths generalizing v with
  | nil =>
    obtain ⟨before, step, after, cut, -⟩ := first
    simp at cut
  | cons path paths ih =>
    rw [List.map_cons, firstFails_cons_iff] at first
    rcases run_translateFiles_cons t config v path paths with
      ⟨e', w, fails, run⟩ | ⟨source, n, w, passes, -, -, run⟩
    · rcases first with here | ⟨passes, -⟩
      · rw [here.unique fails]
        exact ⟨w, run⟩
      · exact absurd fails (passes e')
    · rcases first with here | ⟨-, later⟩
      · exact absurd here (passes e)
      · obtain ⟨w', run'⟩ := ih w later
        exact ⟨w', run.trans run'⟩

/-- What files translate to depends on their texts only, and the tree stays as it is. -/
theorem run_translateFiles_congr (same : u.readText = t.readText) (v : Translator Page)
    (paths : List String) : ∃ r, (translateFiles v paths : StateM FileTree _).run t = (r, t) ∧
      (translateFiles v paths : StateM FileTree _).run u = (r, u) := by
  induction paths generalizing v with
  | nil => exact ⟨(v, .ok ()), rfl, rfl⟩
  | cons path paths ih =>
    rw [translateFiles, run_bind_eq (run_readText t path), run_bind_eq (run_readText u path), same]
    cases t.readText path with
    | error cause => exact ⟨_, rfl, rfl⟩
    | ok source =>
      dsimp only
      cases v.translateSource ((Path.stem? path).getD "") source with
      | mk w result =>
        cases result with
        | error cause => exact ⟨_, rfl, rfl⟩
        | ok n => exact ih w

/-- A new translator, behind the bootstrap if that is wanted. -/
def booted (bootstrap : Bool) (config : Vm.Config) :
    Translator Page × Except Vm.TranslateError Unit :=
  if bootstrap then (Translator.new Page.empty config).bootstrap
  else (.new Page.empty config, .ok ())

theorem booted_cases (t : FileTree) (bootstrap : Bool) (config : Vm.Config) :
    (∃ e w, booted bootstrap config = (w, .error e) ∧ bootstrap = true ∧
      Fails t config .bootstrap (.translate e)) ∨
    ∃ w, booted bootstrap config = (w, .ok ()) ∧
      (bootstrap = true → ∀ e, ¬ Fails t config .bootstrap e) := by
  cases bootstrap with
  | false => exact .inr ⟨_, rfl, fun on => by cases on⟩
  | true =>
    have alone := verdict_bootstrap config
    rw [booted, if_pos rfl]
    cases start : (Translator.new Page.empty config).bootstrap with
    | mk w result =>
      rw [start] at alone
      cases result with
      | error e => exact .inl ⟨e, w, rfl, rfl, .bootstrap (Vm.verdict_eq_error_iff.1 alone.symm)⟩
      | ok done =>
        obtain ⟨text, fine⟩ := Vm.verdict_eq_ok_iff.1 alone.symm
        exact .inr ⟨w, rfl, fun _ e => not_fails_bootstrap fine⟩

/-- Without the bootstrap, or behind it, the text is that of the units. -/
theorem run_outputText_of_booted {job : Job} {w : Translator Page}
    (start : booted (config.wantsBootstrap job.multiUnit) config = (w, .ok ()))
    {r : Translator Page × Except Error Unit}
    (units : (translateFiles w job.units : StateM FileTree _).run t = (r, t)) :
    (job.outputText config : StateM FileTree _).run t =
      (r.2.map fun _ => r.1.writer.sink.text, t) := by
  rw [outputText, ← booted, start]
  dsimp only
  rw [run_bind_eq units]
  obtain ⟨w', result⟩ := r
  cases result <;> rfl

theorem run_outputText_of_refused {job : Job} {w : Translator Page} {e : Vm.TranslateError}
    (start : booted (config.wantsBootstrap job.multiUnit) config = (w, .error e)) :
    (job.outputText config : StateM FileTree _).run t = (.error (.translate e), t) := by
  rw [outputText, ← booted, start]
  rfl

/-- The texts of units that all translate are put together by the job. -/
theorem run_outputText_ok {job : Job} {bootstrap : Bool}
    (wants : config.wantsBootstrap job.multiUnit = bootstrap)
    (passes : ∀ step ∈ job.steps bootstrap, ∀ e', ¬ Fails t config step e') :
    ∃ sources text, t.Sources job.units sources ∧
      translateSources sources bootstrap config = .ok text ∧
      (job.outputText config : StateM FileTree _).run t = (.ok text, t) := by
  subst wants
  rw [Job.steps, List.forall_mem_append, List.forall_mem_map] at passes
  rcases booted_cases t (config.wantsBootstrap job.multiUnit) config with
    ⟨e, w, -, on, fails⟩ | ⟨w, start, -⟩
  · rw [if_pos on] at passes
    exact absurd fails (passes.1 .bootstrap List.mem_cons_self _)
  · obtain ⟨sources, w', texts, units, run⟩ := run_translateFiles_ok w passes.2
    refine ⟨sources, w'.writer.sink.text, texts, ?_, run_outputText_of_booted start run⟩
    have page := Vm.translate_eq_ok_iff.2 ⟨w', Vm.translateOnto_eq_ok_iff.2 ⟨w, start, units⟩, rfl⟩
    rw [translateSources, page]
    rfl

/-- A job has the error of its first step that fails. -/
theorem run_outputText_error {job : Job} {bootstrap : Bool}
    (wants : config.wantsBootstrap job.multiUnit = bootstrap)
    (first : FirstFails t config (job.steps bootstrap) e) :
    (job.outputText config : StateM FileTree _).run t = (.error e, t) := by
  subst wants
  rcases booted_cases t (config.wantsBootstrap job.multiUnit) config with
    ⟨e', w, start, on, fails⟩ | ⟨w, start, passes⟩
  · rw [Job.steps, if_pos on, List.singleton_append, firstFails_cons_iff] at first
    rcases first with here | ⟨passes, -⟩
    · rw [here.unique fails]
      exact run_outputText_of_refused start
    · exact absurd fails (passes _)
  · have later : FirstFails t config (job.units.map .unit) e := by
      rw [Job.steps] at first
      split at first
      · next on =>
        rw [List.singleton_append, firstFails_cons_iff] at first
        exact (first.resolve_left (passes on e)).2
      · exact first
    obtain ⟨w', run⟩ := run_translateFiles_error w later
    exact run_outputText_of_booted start run

/-- The text of the output depends on the texts of files only, and the tree stays as it is. -/
theorem run_outputText_congr (same : u.readText = t.readText) (job : Job) (config : Vm.Config) :
    ∃ r, (job.outputText config : StateM FileTree _).run t = (r, t) ∧
      (job.outputText config : StateM FileTree _).run u = (r, u) := by
  rcases booted_cases t (config.wantsBootstrap job.multiUnit) config with
    ⟨e, w, start, -⟩ | ⟨w, start, -⟩
  · exact ⟨_, run_outputText_of_refused start, run_outputText_of_refused start⟩
  · obtain ⟨r, run, run'⟩ := run_translateFiles_congr same w job.units
    exact ⟨_, run_outputText_of_booted start run, run_outputText_of_booted start run'⟩

/-! ## The output -/

/-- A job whose text is complete writes it. -/
theorem run_of_text {job : Job} {text : String}
    (complete : (job.outputText config : StateM FileTree _).run t = (.ok text, t)) :
    (job.run config : StateM FileTree _).run t =
      match t.fileTarget job.output with
      | .ok target => (.ok job.output, t.insert target (.file text.toUTF8))
      | .error e => (.error (.file job.output e), t) := by
  have written := run_writeText t job.output text
  rw [run, run_bind_eq complete]
  dsimp only
  cases goal : t.fileTarget job.output with
  | error e =>
    rw [goal] at written
    rw [run_bind_eq written]
    rfl
  | ok target =>
    rw [goal] at written
    rw [run_bind_eq written]
    rfl

/-- A job without a text writes nothing. -/
theorem run_of_error {job : Job}
    (failed : (job.outputText config : StateM FileTree _).run t = (.error e, t)) :
    (job.run config : StateM FileTree _).run t = (.error e, t) := by
  rw [run, run_bind_eq failed]
  rfl

/-- A run of a job on a tree is all or nothing. Either every step passes, and the output alone gets
the text that the units translate to in memory, or the run has an error and changes nothing: that of
the first step that fails, or that of writing the output. -/
structure AllOrNothing (t : FileTree) (job : Job) (bootstrap : Bool) (config : Vm.Config) :
    Prop where
  succeeds : ∀ path u, (job.run config : StateM FileTree _).run t = (.ok path, u) →
    path = job.output ∧ ∃ sources text target, t.Sources job.units sources ∧
      translateSources sources bootstrap config = .ok text ∧
      t.fileTarget job.output = .ok target ∧ t.Replaced target text.toUTF8 u ∧
      u.readText job.output = .ok text
  breaks : ∀ step ∈ job.steps bootstrap, ∀ e, Fails t config step e →
    ∃ first, FirstFails t config (job.steps bootstrap) first
  fails : ∀ first, FirstFails t config (job.steps bootstrap) first →
    (job.run config : StateM FileTree _).run t = (.error first, t)
  unchanged : ∀ e u, (job.run config : StateM FileTree _).run t = (.error e, u) → u = t
  completes : (∀ step ∈ job.steps bootstrap, ∀ e, ¬ Fails t config step e) →
    ∃ sources text, t.Sources job.units sources ∧
      translateSources sources bootstrap config = .ok text ∧
      (job.run config : StateM FileTree _).run t =
        match t.fileTarget job.output with
        | .ok target => (.ok job.output, t.insert target (.file text.toUTF8))
        | .error e => (.error (.file job.output e), t)

/-- The ways in which a run ends, each with its result and the tree behind it. -/
inductive Ending (t : FileTree) (job : Job) (bootstrap : Bool) (config : Vm.Config) :
    Except Error String × FileTree → Prop
  | broken {first : Error} (fails : FirstFails t config (job.steps bootstrap) first) :
      Ending t job bootstrap config (.error first, t)
  | unwritten {sources : List (String × String)} {text : String} {cause : FileError}
      (texts : t.Sources job.units sources)
      (translated : translateSources sources bootstrap config = .ok text)
      (goal : t.fileTarget job.output = .error cause) :
      Ending t job bootstrap config (.error (.file job.output cause), t)
  | written {sources : List (String × String)} {text : String} {target : List String}
      (texts : t.Sources job.units sources)
      (translated : translateSources sources bootstrap config = .ok text)
      (goal : t.fileTarget job.output = .ok target) :
      Ending t job bootstrap config (.ok job.output, t.insert target (.file text.toUTF8))

theorem run_ending (t : FileTree) (job : Job) (config : Vm.Config) :
    Ending t job (config.wantsBootstrap job.multiUnit) config
      ((job.run config : StateM FileTree _).run t) := by
  by_cases passes : ∀ step ∈ job.steps (config.wantsBootstrap job.multiUnit),
      ∀ e, ¬ Fails t config step e
  · obtain ⟨sources, text, texts, translated, complete⟩ := run_outputText_ok rfl passes
    rw [run_of_text complete]
    cases goal : t.fileTarget job.output with
    | error cause => exact .unwritten texts translated goal
    | ok target => exact .written texts translated goal
  · simp only [not_forall, not_not] at passes
    obtain ⟨step, mem, e, fails⟩ := passes
    obtain ⟨first, here⟩ := exists_firstFails mem fails
    rw [run_of_error (run_outputText_error rfl here)]
    exact .broken here

theorem allOrNothing (t : FileTree) (job : Job) (config : Vm.Config) :
    AllOrNothing t job (config.wantsBootstrap job.multiUnit) config where
  succeeds path u done := by
    have ending := run_ending t job config
    rw [done] at ending
    cases ending with
    | @written sources text target texts translated goal =>
      have replaced :=
        FileTree.replaced_insert (t := t) (FileTree.ne_nil_of_fileTarget goal) text.toUTF8
      exact ⟨rfl, sources, text, target, texts, translated, goal, replaced,
        replaced.readText goal⟩
  breaks step mem e fails := exists_firstFails mem fails
  fails first here := run_of_error (run_outputText_error rfl here)
  unchanged e u failed := by
    have ending := run_ending t job config
    rw [failed] at ending
    cases ending with
    | broken => rfl
    | unwritten => rfl
  completes passes := by
    obtain ⟨sources, text, texts, translated, complete⟩ := run_outputText_ok rfl passes
    exact ⟨sources, text, texts, translated, run_of_text complete⟩

/-- Trees that are read alike give the same result, and are read alike again behind the run. -/
theorem run_congr (agree : t.Agree u) (job : Job) (config : Vm.Config) :
    ((job.run config : StateM FileTree _).run u).1 = ((job.run config : StateM FileTree _).run t).1 ∧
      ((job.run config : StateM FileTree _).run t).2.Agree
        ((job.run config : StateM FileTree _).run u).2 := by
  obtain ⟨r, run, run'⟩ := run_outputText_congr agree.readText job config
  cases r with
  | error e =>
    rw [run_of_error run, run_of_error run']
    exact ⟨rfl, agree⟩
  | ok text =>
    rw [run_of_text run, run_of_text run', agree.fileTarget]
    cases goal : t.fileTarget job.output with
    | error e => exact ⟨rfl, agree⟩
    | ok target =>
      exact ⟨rfl, agree.insert (FileTree.ne_nil_of_fileTarget goal) text.toUTF8⟩

/-- A planned job is all or nothing. -/
theorem run_all_or_nothing (proper : t.Proper) {input : String} {job : Job}
    (planned : ((plan input : StateM FileTree _).run t).1 = .ok job) (config : Vm.Config) :
    Planned t input job ∧
      (∀ now, AllOrNothing now job (config.wantsBootstrap (t.kind? input == some .directory))
        config) ∧
      ∀ u, u.workingDirectory = t.workingDirectory → u.entries.Perm t.entries →
        (plan input : StateM FileTree _).run u = (.ok job, u) ∧
        ((job.run config : StateM FileTree _).run u).1 =
          ((job.run config : StateM FileTree _).run t).1 ∧
        ((job.run config : StateM FileTree _).run t).2.Agree
          ((job.run config : StateM FileTree _).run u).2 := by
  have plan := planned_of_plan proper planned
  refine ⟨plan, fun now => ?_, fun u place order => ?_⟩
  · rw [← plan.multiUnit]
    exact allOrNothing now job config
  · have agree := FileTree.Agree.of_perm proper place order
    have result := (plan_congr agree order).trans planned
    exact ⟨Prod.ext result (plan_state u input), run_congr agree job config⟩

/-- A directory with two units, the second of which is no text. -/
def halfText : FileTree :=
  ⟨[], [(["P"], .directory), (["P", "b.VM"], .file ⟨#[0xff]⟩),
    (["P", "a.vm"], .file "add".toUTF8), (["P", "notes.txt"], .file ⟨#[]⟩)]⟩

theorem plan_halfText : ((plan "P" : StateM FileTree _).run halfText).1 =
    .ok ⟨["P/a.vm", "P/b.VM"], "P/P.asm", true⟩ := by
  have kind : halfText.kind? "P" = some .directory := by decide +kernel
  obtain ⟨place, there, node, run⟩ := plan_directory kind
  have start : halfText.resolve "P" = .ok ["P"] := by decide +kernel
  obtain rfl : ["P"] = place := Except.ok.inj (start.symm.trans there)
  have names : halfText.childNames ["P"] = ["b.VM", "a.vm", "notes.txt"] := by decide +kernel
  have sorted : inOrder ["b.VM", "a.vm", "notes.txt"] = ["a.vm", "b.VM", "notes.txt"] :=
    inOrder_eq (by decide) (by decide)
  have first : halfText.isUnit (Path.join "P" "a.vm") = true := by decide +kernel
  have second : halfText.isUnit (Path.join "P" "b.VM") = true := by
    have lower : "VM".toLower = "vm" := by
      rw [← String.toList_inj, FileTree.toList_toLower]
      decide
    refine (FileTree.isUnit_join_iff (by decide +kernel) there node).2 ⟨⟨_, rfl⟩, ?_, by decide⟩
    exact ⟨"VM", by decide +kernel, lower⟩
  have other : halfText.isUnit (Path.join "P" "notes.txt") = false := by decide +kernel
  have units : halfText.unitNames "P" (halfText.childNames ["P"]) = ["a.vm", "b.VM"] := by
    rw [FileTree.unitNames, names, sorted]
    simp [first, second, other]
  rw [run, units, ofUnits, start]
  decide +kernel

theorem run_all_or_nothing_halfText :
    halfText.Proper ∧
      ((plan "P" : StateM FileTree _).run halfText).1 =
        .ok ⟨["P/a.vm", "P/b.VM"], "P/P.asm", true⟩ ∧
      (Job.run ⟨["P/a.vm", "P/b.VM"], "P/P.asm", true⟩ {} : StateM FileTree _).run halfText =
        (.error (.file "P/b.VM" .notText), halfText) := by
  have proper : halfText.Proper := by decide +kernel
  have whole := (run_all_or_nothing proper plan_halfText {}).2.1 halfText
  have read : halfText.readText "P/a.vm" = .ok "add" := by decide +kernel
  have unread : halfText.readText "P/b.VM" = .error .notText := by decide +kernel
  have boot : (translateSources [] true {}).toOption.isSome = true := by decide +kernel
  have unit : (translateSources [("a", "add")] false {}).toOption.isSome = true := by
    decide +kernel
  obtain ⟨bootText, boot⟩ := Option.isSome_iff_exists.1 boot
  obtain ⟨unitText, unit⟩ := Option.isSome_iff_exists.1 unit
  refine ⟨proper, plan_halfText, whole.fails _ ?_⟩
  refine ⟨[.bootstrap, .unit "P/a.vm"], .unit "P/b.VM", [], by decide +kernel, ?_, .read unread⟩
  rw [List.forall_mem_cons, List.forall_mem_singleton]
  constructor
  · exact fun e => not_fails_bootstrap (Vm.eq_ok_of_toOption boot)
  · have name : unitName "P/a.vm" = "a" := by decide +kernel
    rw [← name] at unit
    exact fun e => not_fails_unit read (Vm.eq_ok_of_toOption unit)

end Job

end HackPlatform
