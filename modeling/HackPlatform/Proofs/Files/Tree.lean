import HackPlatform.Proofs.Files.Path
import Mathlib.Data.List.Nodup

/-!
# Trees as maps from paths to entries

A tree is read through the entries at its paths only, so two trees with the same entries are read
alike, in whatever order they hold them. A file that is written is found again under its path, and
nothing else changes.
-/

namespace HackPlatform

/-- Without repeated keys a look-up is membership. -/
theorem lookup_eq_some_iff_of_nodup {α β : Type} [BEq α] [LawfulBEq α] {l : List (α × β)}
    (distinct : (l.map Prod.fst).Nodup) {k : α} {v : β} : l.lookup k = some v ↔ (k, v) ∈ l := by
  rw [List.lookup_eq_some_iff]
  constructor
  · rintro ⟨front, back, rfl, -⟩
    simp
  · intro mem
    obtain ⟨front, back, rfl⟩ := List.append_of_mem mem
    refine ⟨front, back, rfl, fun e before => bne_iff_ne.2 ?_⟩
    rintro rfl
    rw [List.map_append, List.map_cons] at distinct
    exact (List.nodup_append.1 distinct).2.2 _ (List.mem_map_of_mem before) _ List.mem_cons_self rfl

section Replace

variable {α β : Type} [BEq α] [LawfulBEq α] {l : List (α × β)} {k q : α}

/-- A key that is there gets its new value. -/
theorem lookup_map_self (mem : (l.lookup k).isSome) (v : β) :
    (l.map fun e => if e.1 == k then (k, v) else e).lookup k = some v := by
  induction l with
  | nil => cases mem
  | cons e l ih =>
    rw [List.map_cons]
    by_cases here : e.1 = k
    · simp [here]
    · have apart : (k == e.1) = false := beq_eq_false_iff_ne.2 (Ne.symm here)
      rw [List.lookup_cons, apart] at mem
      rw [if_neg (by simpa using here), List.lookup_cons, apart]
      exact ih mem

/-- Other keys keep their values. -/
theorem lookup_map_of_ne (apart : q ≠ k) (v : β) :
    (l.map fun e => if e.1 == k then (k, v) else e).lookup q = l.lookup q := by
  induction l with
  | nil => rfl
  | cons e l ih =>
    rw [List.map_cons, List.lookup_cons, List.lookup_cons, ih]
    by_cases here : e.1 = k
    · simp [here, beq_eq_false_iff_ne.2 apart]
    · simp [here]

end Replace

namespace FileTree

variable {t u : FileTree}

/-- Every path has at most one entry, and every name is one that an entry can have. -/
structure Proper (t : FileTree) : Prop where
  distinct : (t.entries.map Prod.fst).Nodup
  names : ∀ e ∈ t.entries, ∀ name ∈ e.1, ProperName name

instance (t : FileTree) : Decidable t.Proper :=
  decidable_of_iff ((t.entries.map Prod.fst).Nodup ∧ ∀ e ∈ t.entries, ∀ name ∈ e.1, ProperName name)
    ⟨fun ⟨distinct, names⟩ => ⟨distinct, names⟩, fun ⟨distinct, names⟩ => ⟨distinct, names⟩⟩

theorem node?_eq_lookup {path : List String} (filled : path ≠ []) :
    t.node? path = t.entries.lookup path := by
  rw [node?, if_neg]
  simpa using filled

/-- Two trees have the same entries at all paths. -/
structure Agree (t u : FileTree) : Prop where
  workingDirectory : u.workingDirectory = t.workingDirectory
  node : ∀ path, u.node? path = t.node? path

namespace Agree

/-- The order of entries does not count when no path has two. -/
theorem of_perm (proper : t.Proper) (place : u.workingDirectory = t.workingDirectory)
    (order : u.entries.Perm t.entries) : t.Agree u := by
  have distinct : (u.entries.map Prod.fst).Nodup :=
    (order.map Prod.fst).nodup_iff.2 proper.distinct
  refine ⟨place, fun path => ?_⟩
  by_cases root : path = []
  · rw [root]
    rfl
  · rw [node?_eq_lookup root, node?_eq_lookup root]
    refine Option.ext fun node => ?_
    rw [lookup_eq_some_iff_of_nodup distinct, lookup_eq_some_iff_of_nodup proper.distinct,
      order.mem_iff]

theorem stepInto (h : t.Agree u) : u.stepInto = t.stepInto := by
  funext place component
  simp only [FileTree.stepInto, h.node]

theorem origin (h : t.Agree u) : u.origin = t.origin := by
  funext path
  simp only [FileTree.origin, h.workingDirectory]

theorem resolve (h : t.Agree u) : u.resolve = t.resolve := by
  funext path
  simp only [FileTree.resolve, h.stepInto, h.origin]

theorem kind? (h : t.Agree u) : u.kind? = t.kind? := by
  funext path
  simp only [FileTree.kind?, h.resolve, h.node]

theorem readBytes (h : t.Agree u) : u.readBytes = t.readBytes := by
  funext path
  simp only [FileTree.readBytes, h.resolve, h.node]

theorem fileTarget (h : t.Agree u) : u.fileTarget = t.fileTarget := by
  funext path
  simp only [FileTree.fileTarget, h.stepInto, h.origin, h.node]

end Agree

/-- The name of a path right below a place. -/
def childName? (place path : List String) : Option String :=
  if path.dropLast == place && !path.isEmpty then path.getLast? else none

/-- The names of the entries right below a place. -/
def childNames (t : FileTree) (place : List String) : List String :=
  t.entries.filterMap fun e => childName? place e.1

theorem childName?_eq_some_iff {place path : List String} {name : String} :
    childName? place path = some name ↔ path = place ++ [name] := by
  unfold childName?
  obtain rfl | ⟨front, last, rfl⟩ := List.eq_nil_or_concat' path
  · simp
  · simp

/-- Where a path leads when it leads to a directory. -/
theorem resolve_of_kind? {path : String} {kind : EntryKind} (h : t.kind? path = some kind) :
    ∃ place, t.resolve path = .ok place ∧
      match kind with
      | .directory => t.node? place = some .directory
      | .file => ∃ bytes, t.node? place = some (.file bytes) := by
  rw [FileTree.kind?] at h
  split at h
  · cases h
  · next place there =>
    refine ⟨place, there, ?_⟩
    cases node : t.node? place with
    | none => simp [node] at h
    | some entry =>
      rw [node] at h
      cases entry with
      | directory =>
        cases h
        rfl
      | file bytes =>
        cases h
        exact ⟨bytes, rfl⟩

theorem names_eq_ok {path : String} {place : List String} (there : t.resolve path = .ok place)
    (node : t.node? place = some .directory) : t.names path = .ok (t.childNames place) := by
  rw [names, there]
  simp only [bind, Except.bind, node]
  rfl

/-- The names below a place are those under which there is an entry. -/
theorem mem_childNames {place : List String} {name : String} :
    name ∈ t.childNames place ↔ (t.node? (place ++ [name])).isSome := by
  rw [node?_eq_lookup (by simp), List.lookup_isSome_iff, childNames, List.mem_filterMap]
  simp only [childName?_eq_some_iff, beq_iff_eq]
  exact exists_congr fun e => and_congr_right fun _ => eq_comm

theorem nodup_childNames (proper : t.Proper) (place : List String) :
    (t.childNames place).Nodup := by
  have keys : t.childNames place = (t.entries.map Prod.fst).filterMap (childName? place) := by
    rw [List.filterMap_map]
    rfl
  rw [keys]
  refine proper.distinct.filterMap fun a b name first second => ?_
  exact (childName?_eq_some_iff.1 first).trans (childName?_eq_some_iff.1 second).symm

theorem perm_childNames (order : u.entries.Perm t.entries) (place : List String) :
    (u.childNames place).Perm (t.childNames place) :=
  order.filterMap _

theorem checkPath_eq_ok_iff {path : String} :
    checkPath path = .ok () ↔
      '\x00' ∉ path.toList ∧ path ≠ "" ∧ path.utf8ByteSize ≤ maxPathBytes := by
  unfold checkPath
  split
  · next nul => simpa using fun absent => absurd (by simpa using nul) absent
  · next nul =>
    split
    · next empty => simpa using fun _ filled => absurd (by simpa using empty) filled
    · next filled =>
      split
      · next long => simpa using fun _ _ => long
      · next short => simpa [Nat.not_lt.1 short] using ⟨by simpa using nul, by simpa using filled⟩

theorem resolve_eq_ok_iff {path : String} {place : List String} :
    t.resolve path = .ok place ↔
      checkPath path = .ok () ∧ (steps path).foldlM t.stepInto (t.origin path) = .ok place := by
  rw [resolve]
  cases checkPath path with
  | error e => simp [bind, Except.bind]
  | ok u => simp [bind, Except.bind]

/-- The ways to take one step: stay, go up, or go to an entry that is there. -/
theorem stepInto_eq_ok_iff {place next : List String} {c : String} :
    t.stepInto place c = .ok next ↔ t.node? place = some .directory ∧
      (c = "." ∧ place = next ∨ c = ".." ∧ place.dropLast = next ∨
        c ≠ "." ∧ c ≠ ".." ∧ c.utf8ByteSize ≤ maxNameBytes ∧ place ++ [c] = next ∧
          (t.node? (place ++ [c])).isSome) := by
  unfold stepInto
  split
  · next node =>
    by_cases here : c = "."
    · simp [here, node]
    · by_cases up : c = ".."
      · simp [up, node]
      · by_cases short : c.utf8ByteSize ≤ maxNameBytes
        · by_cases there : (t.node? (place ++ [c])).isSome
          · simp [here, up, node, short, there, Nat.not_lt.2 short]
          · simp [here, up, node, short, there, Nat.not_lt.2 short]
        · simp [here, up, short, Nat.not_le.1 short]
  · next node => simp [node]
  · next node => simp [node]

/-- The components alone lead where the path does. -/
theorem walk_of_resolve {path : String} {place : List String} (h : t.resolve path = .ok place) :
    (parts path).foldlM t.stepInto (t.origin path) = .ok place := by
  have walk := (resolve_eq_ok_iff.1 h).2
  unfold steps at walk
  split at walk
  · simp only [List.foldlM_append, List.foldlM_cons, List.foldlM_nil, bind_pure] at walk
    cases front : (parts path).foldlM t.stepInto (t.origin path) with
    | error e =>
      rw [front] at walk
      cases walk
    | ok here =>
      rw [front] at walk
      obtain ⟨-, ⟨-, rfl⟩ | ⟨up, -⟩ | ⟨here, -⟩⟩ := stepInto_eq_ok_iff.1 walk
      · rfl
      · exact absurd up (by decide)
      · exact absurd rfl here
  · exact walk

theorem stepInto_name {name : String} {place : List String} (h : ProperName name)
    (node : t.node? place = some .directory) :
    t.stepInto place name =
      if (t.node? (place ++ [name])).isSome then .ok (place ++ [name]) else .error .notFound := by
  simp [stepInto, node, h.here, h.up, Nat.not_lt.2 h.short]

/-- A directory is entered through its path, as long as the whole path is not too long. -/
theorem resolve_join {directory name : String} {place : List String} (h : ProperName name)
    (there : t.resolve directory = .ok place) :
    t.resolve (Path.join directory name) =
      if (Path.join directory name).utf8ByteSize ≤ maxPathBytes then t.stepInto place name
      else .error .tooLong := by
  obtain ⟨nul, filled, -⟩ := checkPath_eq_ok_iff.1 (resolve_eq_ok_iff.1 there).1
  have clean := h.nul_join nul
  have some := h.join_ne_empty directory
  split
  · next short =>
    have start : t.origin (Path.join directory name) = t.origin directory := by
      rw [origin, origin, head?_join filled]
    have check : checkPath (Path.join directory name) = .ok () :=
      checkPath_eq_ok_iff.2 ⟨clean, some, short⟩
    rw [resolve, check, h.steps_join, List.foldlM_append, start, walk_of_resolve there]
    simp only [List.foldlM_cons, List.foldlM_nil, bind_pure]
    rfl
  · next long =>
    have check : checkPath (Path.join directory name) = .error .tooLong := by
      simp [checkPath, clean, some, Nat.not_le.1 long]
    rw [resolve, check]
    rfl

/-- A file in a directory is found under its joined path. -/
theorem kind?_join_eq_file_iff {directory name : String} {place : List String} (h : ProperName name)
    (there : t.resolve directory = .ok place) (node : t.node? place = some .directory) :
    t.kind? (Path.join directory name) = some .file ↔
      (Path.join directory name).utf8ByteSize ≤ maxPathBytes ∧
        ∃ bytes, t.node? (place ++ [name]) = some (.file bytes) := by
  rw [kind?, resolve_join h there]
  by_cases short : (Path.join directory name).utf8ByteSize ≤ maxPathBytes
  · rw [if_pos short, stepInto_name h node]
    cases entry : t.node? (place ++ [name]) with
    | none => simp
    | some child => cases child <;> simp [entry, short]
  · rw [if_neg short]
    simp [short]

/-! ## Writing -/

/-- One tree is another in which a file was created or replaced. -/
structure Replaced (t : FileTree) (target : List String) (bytes : ByteArray) (u : FileTree) :
    Prop where
  workingDirectory : u.workingDirectory = t.workingDirectory
  content : u.node? target = some (.file bytes)
  others : ∀ path, path ≠ target → u.node? path = t.node? path

theorem node?_insert_self {path : List String} (filled : path ≠ []) (node : FileNode) :
    (t.insert path node).node? path = some node := by
  rw [node?_eq_lookup filled, insert]
  split
  · next there => exact lookup_map_self there node
  · next missing =>
    rw [Option.not_isSome_iff_eq_none] at missing
    rw [List.lookup_append, missing]
    simp

theorem node?_insert_of_ne {path other : List String} (apart : other ≠ path) (node : FileNode) :
    (t.insert path node).node? other = t.node? other := by
  by_cases root : other = []
  · rw [root]
    rfl
  · rw [node?_eq_lookup root, node?_eq_lookup root, insert]
    split
    · exact lookup_map_of_ne apart node
    · simp [List.lookup_append, List.lookup_cons, beq_eq_false_iff_ne.2 apart]

/-- A tree changes at one path when a file is put there. -/
theorem replaced_insert {target : List String} (filled : target ≠ []) (bytes : ByteArray) :
    t.Replaced target bytes (t.insert target (.file bytes)) where
  workingDirectory := by
    unfold insert
    split <;> rfl
  content := node?_insert_self filled (.file bytes)
  others _ apart := node?_insert_of_ne apart (.file bytes)

/-- Trees that are read alike are so when a file is put at one path of both. -/
theorem Agree.insert (h : t.Agree u) {target : List String} (filled : target ≠ [])
    (bytes : ByteArray) : (t.insert target (.file bytes)).Agree (u.insert target (.file bytes)) := by
  have left := replaced_insert (t := t) filled bytes
  have right := replaced_insert (t := u) filled bytes
  refine ⟨?_, fun path => ?_⟩
  · rw [left.workingDirectory, right.workingDirectory, h.workingDirectory]
  · by_cases here : path = target
    · rw [here, left.content, right.content]
    · rw [left.others path here, right.others path here, h.node]

/-- A path names a file, there or not, in a directory that is there. -/
structure NamesFile (t : FileTree) (path : String) (place : List String) (name : String) :
    Prop where
  check : checkPath path = .ok ()
  walk : (parts path).dropLast.foldlM t.stepInto (t.origin path) = .ok place
  last : (parts path).getLast? = some name
  directory : t.node? place = some .directory
  noSlash : endsInSlash path = false
  here : name ≠ "."
  up : name ≠ ".."
  short : name.utf8ByteSize ≤ maxNameBytes
  file : t.node? (place ++ [name]) ≠ some .directory

theorem namesFile_of_fileTarget {path : String} {target : List String}
    (h : t.fileTarget path = .ok target) :
    ∃ place name, target = place ++ [name] ∧ t.NamesFile path place name := by
  rw [fileTarget] at h
  cases check : checkPath path with
  | error e =>
    rw [check] at h
    cases h
  | ok u =>
    rw [check] at h
    cases walk : (parts path).dropLast.foldlM t.stepInto (t.origin path) with
    | error e =>
      rw [walk] at h
      cases h
    | ok place =>
      rw [walk] at h
      simp only [bind, Except.bind] at h
      split at h
      · next name directory last =>
        split at h
        · cases h
        · next plain =>
          simp only [Bool.or_eq_true, beq_iff_eq, not_or, Bool.not_eq_true] at plain
          obtain ⟨⟨noSlash, here⟩, up⟩ := plain
          split at h
          · cases h
          · next short =>
            split at h
            · cases h
            · next file =>
              cases h
              exact ⟨place, name, rfl, check, walk, last, directory, noSlash, here, up,
                Nat.not_lt.1 short, file⟩
      all_goals cases h

theorem ne_nil_of_fileTarget {path : String} {target : List String}
    (h : t.fileTarget path = .ok target) : target ≠ [] := by
  obtain ⟨place, name, rfl, -⟩ := namesFile_of_fileTarget h
  exact List.append_ne_nil_of_right_ne_nil place (List.cons_ne_nil name [])

/-- A place that was found before a file was written is found again. -/
theorem Replaced.walk {target : List String} {bytes : ByteArray} (h : t.Replaced target bytes u)
    (file : t.node? target ≠ some .directory) {place next : List String} {path : List String}
    (walk : path.foldlM t.stepInto place = .ok next) : path.foldlM u.stepInto place = .ok next := by
  have directory {q : List String} (there : t.node? q = some .directory) :
      u.node? q = some .directory := by
    by_cases at_ : q = target
    · exact absurd (at_ ▸ there) file
    · rw [h.others q at_, there]
  have present {q : List String} (there : (t.node? q).isSome) : (u.node? q).isSome := by
    by_cases at_ : q = target
    · rw [at_, h.content]
      rfl
    · rwa [h.others q at_]
  induction path generalizing place with
  | nil => exact walk
  | cons component path ih =>
    rw [List.foldlM_cons] at walk ⊢
    cases step : t.stepInto place component with
    | error e =>
      rw [step] at walk
      cases walk
    | ok mid =>
      rw [step] at walk
      have again : u.stepInto place component = .ok mid := by
        obtain ⟨node, how⟩ := stepInto_eq_ok_iff.1 step
        refine stepInto_eq_ok_iff.2 ⟨directory node, how.imp_right (.imp_right ?_)⟩
        exact fun ⟨here, up, short, next, there⟩ => ⟨here, up, short, next, present there⟩
      rw [again]
      exact ih walk

/-- A file that was written is read back. -/
theorem Replaced.readBytes {path : String} {target : List String} {bytes : ByteArray}
    (h : t.Replaced target bytes u) (named : t.fileTarget path = .ok target) :
    u.readBytes path = .ok bytes := by
  obtain ⟨place, name, rfl, names⟩ := namesFile_of_fileTarget named
  have last : parts path = (parts path).dropLast ++ [name] :=
    (List.dropLast_append_getLast? name names.last).symm
  have origin : u.origin path = t.origin path := by
    rw [FileTree.origin, FileTree.origin, h.workingDirectory]
  have apart : place ≠ place ++ [name] := by simp
  have step : u.stepInto place name = .ok (place ++ [name]) := by
    simp [stepInto, h.others place apart, names.directory, names.here, names.up,
      Nat.not_lt.2 names.short, h.content]
  have there : u.resolve path = .ok (place ++ [name]) := by
    rw [resolve_eq_ok_iff, steps, names.noSlash, if_neg Bool.false_ne_true, last,
      List.foldlM_append, origin, h.walk names.file names.walk]
    refine ⟨names.check, ?_⟩
    simp only [List.foldlM_cons, List.foldlM_nil, bind_pure]
    exact step
  rw [FileTree.readBytes, there]
  simp only [bind, Except.bind, h.content]
  rfl

/-- The content of a file that must be text. -/
def readText (t : FileTree) (path : String) : Except FileError String :=
  match t.readBytes path with
  | .error e => .error e
  | .ok bytes =>
    match String.fromUTF8? bytes with
    | some text => .ok text
    | none => .error .notText

theorem Agree.readText (h : t.Agree u) : u.readText = t.readText := by
  funext path
  simp only [FileTree.readText, h.readBytes]

/-- A text that was written is read back. -/
theorem Replaced.readText {path text : String} {target : List String}
    (h : t.Replaced target text.toUTF8 u) (named : t.fileTarget path = .ok target) :
    u.readText path = .ok text := by
  have decoded : String.fromUTF8? text.toUTF8 = some text := by
    rw [String.fromUTF8?, dif_pos (show text.toUTF8.IsValidUTF8 from text.isValidUTF8)]
    rfl
  simp only [FileTree.readText, h.readBytes named, decoded]

end FileTree

end HackPlatform
