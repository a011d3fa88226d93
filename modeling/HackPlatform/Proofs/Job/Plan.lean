import HackPlatform.Job
import HackPlatform.Proofs.Files.Tree

/-!
# Planned jobs

Planning looks at a tree and leaves it as it is. The units of a directory are its unit files in the
order of their names, and the order in which the tree holds them has no part in the plan.
-/

namespace HackPlatform

section Programs

/-- A program goes on from where its first part ends. -/
theorem run_bind_eq {σ α β : Type} {x : StateM σ α} {a : α} {s s' : σ} (h : x.run s = (a, s'))
    (f : α → StateM σ β) : (x >>= f).run s = (f a).run s' := by
  rw [StateT.run_bind, h]
  rfl

/-- A filter whose test leaves the state as it is. -/
theorem run_filterM {σ α : Type} {p : α → StateM σ Bool} {q : α → Bool} {s : σ}
    (h : ∀ a, (p a).run s = (q a, s)) (l : List α) : (l.filterM p).run s = (l.filter q, s) := by
  have run (l kept : List α) :
      (l.filterAuxM p kept).run s = ((l.filter q).reverse ++ kept, s) := by
    induction l generalizing kept with
    | nil => rfl
    | cons a l ih =>
      rw [List.filterAuxM, run_bind_eq (h a), ih, List.filter_cons]
      cases q a <;> simp
  rw [List.filterM, run_bind_eq (run l [])]
  simp
  rfl

variable (t : FileTree) (path : String)

theorem run_kind? : (FileSystem.kind? path : StateM FileTree _).run t = (t.kind? path, t) := rfl

theorem run_names : (FileSystem.names path : StateM FileTree _).run t = (t.names path, t) := rfl

theorem run_ownName? : (FileSystem.ownName? path : StateM FileTree _).run t =
    ((t.resolve path).toOption.bind List.getLast?, t) := rfl

theorem run_readBytes :
    (FileSystem.readBytes path : StateM FileTree _).run t = (t.readBytes path, t) := rfl

theorem run_readText :
    (FileSystem.readText path : StateM FileTree _).run t = (t.readText path, t) := by
  rw [FileSystem.readText, run_bind_eq (run_readBytes t path), FileTree.readText]
  cases t.readBytes path with
  | error e => rfl
  | ok bytes =>
    dsimp only
    cases String.fromUTF8? bytes <;> rfl

/-- A text is written to the file that the path names. -/
theorem run_writeText (text : String) :
    (FileSystem.writeText path text : StateM FileTree _).run t =
      match t.fileTarget path with
      | .ok target => (.ok (), t.insert target (.file text.toUTF8))
      | .error e => (.error e, t) := by
  have start : (get : StateM FileTree FileTree).run t = (t, t) := rfl
  refine (run_bind_eq start _).trans ?_
  rw [FileTree.writeBytes]
  cases t.fileTarget path <;> rfl

end Programs

/-- Names in ascending order. -/
def inOrder (names : List String) : List String :=
  names.mergeSort fun a b => !decide (b < a)

theorem mem_inOrder {names : List String} {name : String} :
    name ∈ inOrder names ↔ name ∈ names :=
  (List.mergeSort_perm names _).mem_iff

theorem pairwise_inOrder (names : List String) : (inOrder names).Pairwise (· ≤ ·) := by
  have ordered : (inOrder names).Pairwise fun a b => (!decide (b < a)) = true := by
    refine List.pairwise_mergeSort (fun a b c left right => ?_) (fun a b => ?_) names
    · simp only [Bool.not_eq_true', decide_eq_false_iff_not, String.not_lt] at left right ⊢
      exact String.le_trans left right
    · simp only [Bool.or_eq_true, Bool.not_eq_true', decide_eq_false_iff_not, String.not_lt]
      exact String.le_total a b
  refine ordered.imp fun {a b} h => ?_
  rw [Bool.not_eq_true', decide_eq_false_iff_not] at h
  exact String.not_lt.1 h

/-- Names that differ are put in strictly ascending order. -/
theorem strict_inOrder {names : List String} (distinct : names.Nodup) :
    (inOrder names).Pairwise (· < ·) := by
  have apart : (inOrder names).Nodup := (List.mergeSort_perm names _).nodup_iff.2 distinct
  refine ((pairwise_inOrder names).and apart).imp fun {a b} h => ?_
  obtain ⟨le, ne⟩ := h
  by_contra not
  exact ne (String.le_antisymm le (String.not_lt.1 not))

/-- There is one way only to put names in ascending order. -/
theorem inOrder_eq {names sorted : List String} (order : names.Perm sorted)
    (ascending : sorted.Pairwise (· ≤ ·)) : inOrder names = sorted := by
  have same : (inOrder names).Perm sorted := (List.mergeSort_perm names _).trans order
  exact same.eq_of_pairwise (fun a b _ _ => String.le_antisymm) (pairwise_inOrder names) ascending

/-- The order in which names are given does not count. -/
theorem inOrder_congr {names names' : List String} (h : names.Perm names') :
    inOrder names = inOrder names' :=
  inOrder_eq (h.trans (List.mergeSort_perm names' _).symm) (pairwise_inOrder names')

namespace FileTree

variable {t u : FileTree} {input name : String} {place : List String}

/-- A directory holds a unit: a file, within reach, whose extension is that of unit files in any
letter case. -/
structure HoldsUnit (t : FileTree) (input : String) (place : List String) (name : String) :
    Prop where
  file : ∃ bytes, t.node? (place ++ [name]) = some (.file bytes)
  extension : ∃ ext, Path.extension? name = some ext ∧ ext.toLower = "vm"
  reachable : (Path.join input name).utf8ByteSize ≤ maxPathBytes

/-- Lower case is taken letter by letter. -/
theorem toList_toLower (text : String) : text.toLower.toList = text.toList.map Char.toLower :=
  String.toList_map

/-- Whether a path leads to a unit file of the tree. -/
def isUnit (t : FileTree) (path : String) : Bool :=
  t.kind? path == some .file && Path.hasExtension path unitExtension

/-- The names of unit files among the names in a directory, in ascending order. -/
def unitNames (t : FileTree) (input : String) (names : List String) : List String :=
  (inOrder names).filter fun name => t.isUnit (Path.join input name)

theorem run_isUnitFile (t : FileTree) (path : String) :
    (Job.isUnitFile path : StateM FileTree _).run t = (t.isUnit path, t) :=
  run_bind_eq (run_kind? t path) _

/-- Within a directory, the test for unit files tells which names are units. -/
theorem isUnit_join_iff (h : ProperName name) (there : t.resolve input = .ok place)
    (node : t.node? place = some .directory) :
    t.isUnit (Path.join input name) = true ↔ t.HoldsUnit input place name := by
  have lower : unitExtension.toLower = "vm" := by
    rw [← String.toList_inj, toList_toLower]
    decide
  have extension : Path.hasExtension (Path.join input name) unitExtension = true ↔
      ∃ ext, Path.extension? name = some ext ∧ ext.toLower = "vm" := by
    rw [Path.hasExtension, h.extension?_join, Option.any_eq_true, lower]
    simp only [beq_iff_eq]
  rw [isUnit, Bool.and_eq_true, beq_iff_eq, kind?_join_eq_file_iff h there node, extension]
  constructor
  · rintro ⟨⟨reachable, file⟩, extension⟩
    exact ⟨file, extension, reachable⟩
  · rintro ⟨file, extension, reachable⟩
    exact ⟨⟨reachable, file⟩, extension⟩

theorem properName_of_mem_childNames (proper : t.Proper) (mem : name ∈ t.childNames place) :
    ProperName name := by
  obtain ⟨e, entry, child⟩ := List.mem_filterMap.1 mem
  refine proper.names e entry name ?_
  rw [childName?_eq_some_iff.1 child]
  exact List.mem_append_right place List.mem_cons_self

theorem mem_unitNames_iff (proper : t.Proper) (there : t.resolve input = .ok place)
    (node : t.node? place = some .directory) :
    name ∈ t.unitNames input (t.childNames place) ↔ t.HoldsUnit input place name := by
  rw [unitNames, List.mem_filter, mem_inOrder]
  constructor
  · rintro ⟨mem, unit⟩
    exact (isUnit_join_iff (properName_of_mem_childNames proper mem) there node).1 unit
  · intro unit
    obtain ⟨bytes, file⟩ := unit.file
    have mem : name ∈ t.childNames place := mem_childNames.2 (by rw [file]; rfl)
    exact ⟨mem, (isUnit_join_iff (properName_of_mem_childNames proper mem) there node).2 unit⟩

theorem Agree.isUnit (h : t.Agree u) : u.isUnit = t.isUnit := by
  funext path
  simp only [FileTree.isUnit, h.kind?]

/-- The order of entries has no part in the units. -/
theorem Agree.unitNames (h : t.Agree u) (order : u.entries.Perm t.entries) (input : String)
    (place : List String) :
    u.unitNames input (u.childNames place) = t.unitNames input (t.childNames place) := by
  rw [FileTree.unitNames, FileTree.unitNames, h.isUnit, inOrder_congr (perm_childNames order place)]

end FileTree

/-! ## The plan -/

namespace Job

variable {t u : FileTree} {input : String} {job : Job}

/-- The job of a directory with given units, which fails when there are none. -/
def ofUnits (t : FileTree) (input : String) (names : List String) : Except Error Job :=
  if names.isEmpty then .error (.emptyDirectory input)
  else
    .ok
      { units := names.map (Path.join input)
        output := Path.join input
          (((t.resolve input).toOption.bind List.getLast?).getD "out" ++ "." ++ outputExtension)
        multiUnit := true }

theorem run_planDirectory {names : List String} (listed : t.names input = .ok names) :
    (planDirectory input : StateM FileTree _).run t =
      (ofUnits t input (t.unitNames input names), t) := by
  rw [planDirectory, run_bind_eq (run_names t input), listed]
  dsimp only
  rw [run_bind_eq (run_filterM (fun name => t.run_isUnitFile (Path.join input name)) _), ofUnits,
    FileTree.unitNames, inOrder]
  split
  · rfl
  · rw [run_bind_eq (run_ownName? t input)]
    rfl

/-- A job is planned from a unit file alone, or from a directory with all units that it holds, in
ascending order of their names. -/
structure Planned (t : FileTree) (input : String) (job : Job) : Prop where
  multiUnit : job.multiUnit = (t.kind? input == some .directory)
  file : t.kind? input = some .file → job.units = [input]
  directory : t.kind? input = some .directory → ∃ (place names : List String),
    t.resolve input = .ok place ∧ job.units = names.map (Path.join input) ∧
      names.Pairwise (· < ·) ∧ ∀ name, name ∈ names ↔ t.HoldsUnit input place name
  named : ∀ path ∈ job.units, (Path.stem? path).isSome

theorem plan_directory (h : t.kind? input = some .directory) :
    ∃ place, t.resolve input = .ok place ∧ t.node? place = some .directory ∧
      (plan input : StateM FileTree _).run t =
        (ofUnits t input (t.unitNames input (t.childNames place)), t) := by
  obtain ⟨place, there, node⟩ := FileTree.resolve_of_kind? h
  refine ⟨place, there, node, ?_⟩
  rw [plan, run_bind_eq (run_kind? t input), h]
  exact run_planDirectory (FileTree.names_eq_ok there node)

theorem plan_file (h : t.kind? input = some .file) :
    (plan input : StateM FileTree _).run t =
      (if Path.hasExtension input unitExtension then
        .ok ⟨[input], Path.withExtension input outputExtension, false⟩
      else .error (.unsupportedInput input), t) := by
  rw [plan, run_bind_eq (run_kind? t input), h]
  dsimp only
  split <;> rfl

theorem plan_missing (h : t.kind? input = none) :
    (plan input : StateM FileTree _).run t = (.error (.missing input), t) := by
  rw [plan, run_bind_eq (run_kind? t input), h]
  rfl

/-- A path with an extension has a name, and so a stem. -/
theorem stem?_of_hasExtension {path ext : String} (h : Path.hasExtension path ext = true) :
    (Path.stem? path).isSome := by
  rw [Path.hasExtension, Path.extension?] at h
  rw [Path.stem?]
  cases name : Path.name? path with
  | none =>
    rw [name] at h
    cases h
  | some last => rfl

/-- What a plan consists of. -/
theorem planned_of_plan (proper : t.Proper)
    (planned : ((plan input : StateM FileTree _).run t).1 = .ok job) : Planned t input job := by
  cases kind : t.kind? input with
  | none =>
    rw [plan_missing kind] at planned
    cases planned
  | some kind' =>
    cases kind' with
    | file =>
      rw [plan_file kind] at planned
      dsimp only at planned
      split at planned
      · next extension =>
        cases planned
        refine ⟨by rw [kind]; rfl, fun _ => rfl, fun other => ?_, ?_⟩
        · rw [kind] at other
          cases other
        · rw [List.forall_mem_singleton]
          exact stem?_of_hasExtension extension
      · cases planned
    | directory =>
      obtain ⟨place, there, node, run⟩ := plan_directory kind
      rw [run] at planned
      dsimp only [ofUnits] at planned
      split at planned
      · cases planned
      · cases planned
        refine ⟨by rw [kind]; rfl, fun other => ?_, fun _ => ?_, ?_⟩
        · rw [kind] at other
          cases other
        · have ascending := strict_inOrder (FileTree.nodup_childNames proper place)
          exact ⟨place, _, there, rfl, ascending.filter _, fun name =>
            FileTree.mem_unitNames_iff proper there node⟩
        · rw [List.forall_mem_map]
          intro name mem
          obtain ⟨-, unit⟩ := List.mem_filter.1 mem
          rw [FileTree.isUnit, Bool.and_eq_true] at unit
          exact stem?_of_hasExtension unit.2

/-- A plan does not change when the entries of the tree are put in another order. -/
theorem plan_congr (agree : t.Agree u) (order : u.entries.Perm t.entries) :
    ((plan input : StateM FileTree _).run u).1 = ((plan input : StateM FileTree _).run t).1 := by
  have same : u.kind? input = t.kind? input := by rw [agree.kind?]
  cases kind : t.kind? input with
  | none =>
    rw [kind] at same
    rw [plan_missing same, plan_missing kind]
  | some kind' =>
    rw [kind] at same
    cases kind' with
    | file => rw [plan_file same, plan_file kind]
    | directory =>
      obtain ⟨place, there, -, run⟩ := plan_directory kind
      obtain ⟨place', there', -, run'⟩ := plan_directory same
      rw [agree.resolve, there] at there'
      cases there'
      rw [run, run', agree.unitNames order, ofUnits, ofUnits, agree.resolve]

/-- Planning leaves the tree as it is. -/
theorem plan_state (t : FileTree) (input : String) :
    ((plan input : StateM FileTree _).run t).2 = t := by
  cases kind : t.kind? input with
  | none => rw [plan_missing kind]
  | some kind' =>
    cases kind' with
    | file => rw [plan_file kind]
    | directory =>
      obtain ⟨place, -, -, run⟩ := plan_directory kind
      rw [run]

end Job

end HackPlatform
