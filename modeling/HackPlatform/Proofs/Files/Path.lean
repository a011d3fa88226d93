import HackPlatform.Files.Tree
import HackPlatform.Proofs.Text.Lines

/-!
# The path of a name in a directory

A name that a directory can hold is one component, wherever the path of the directory ends. Joining
adds it behind the components of the directory, so that the name, the extension and the walk of the
joined path are known from the two parts.
-/

namespace HackPlatform

open FileTree (parts endsInSlash steps)

/-- A name that an entry of a directory can have. -/
structure ProperName (name : String) : Prop where
  filled : name ≠ ""
  slash : '/' ∉ name.toList
  nul : '\x00' ∉ name.toList
  here : name ≠ "."
  up : name ≠ ".."
  short : name.utf8ByteSize ≤ maxNameBytes

instance (name : String) : Decidable (ProperName name) :=
  decidable_of_iff (name ≠ "" ∧ '/' ∉ name.toList ∧ '\x00' ∉ name.toList ∧ name ≠ "." ∧
      name ≠ ".." ∧ name.utf8ByteSize ≤ maxNameBytes)
    ⟨fun ⟨filled, slash, nul, here, up, short⟩ => ⟨filled, slash, nul, here, up, short⟩,
      fun ⟨filled, slash, nul, here, up, short⟩ => ⟨filled, slash, nul, here, up, short⟩⟩

variable {directory name : String}

theorem parts_of_noSlash (filled : name ≠ "") (slash : '/' ∉ name.toList) : parts name = [name] := by
  have whole : ∀ x ∈ name.toList, (x == '/') = false := by
    intro x mem
    rw [beq_eq_false_iff_ne]
    rintro rfl
    exact slash mem
  simp [parts, Text.splitAt_eq_singleton whole, filled]

/-- A slash between two paths puts their components together. -/
theorem parts_append_slash (front back : String) :
    parts (front ++ "/" ++ back) = parts front ++ parts back := by
  have cut : Text.splitAt (· == '/') (front.toList ++ '/' :: back.toList) =
      Text.splitAt (· == '/') front.toList ++ Text.splitAt (· == '/') back.toList :=
    Text.splitAt_append_sep (by decide) _ _
  simp [parts, cut]

/-- A path that ends in a slash is another path and that slash. -/
theorem exists_eq_append_slash (h : endsInSlash directory = true) :
    ∃ front, directory = front ++ "/" := by
  have last : directory.toList.getLast? = some '/' := eq_of_beq h
  obtain ⟨front, cut⟩ := List.getLast?_eq_some_iff.1 last
  refine ⟨String.ofList front, String.toList_inj.1 ?_⟩
  rw [cut]
  simp

theorem parts_empty : parts "" = [] := by
  decide

/-- A slash at the end is no component. -/
theorem parts_slash (front : String) : parts (front ++ "/") = parts front := by
  simpa [parts_empty] using parts_append_slash front ""

theorem head?_join (filled : directory ≠ "") :
    (Path.join directory name).toList.head? = directory.toList.head? := by
  have some : directory.toList ≠ [] := fun none => filled (String.toList_eq_nil_iff.1 none)
  obtain ⟨x, rest, cut⟩ := List.exists_cons_of_ne_nil some
  unfold Path.join
  split <;> simp [cut]

namespace ProperName

theorem parts_join (h : ProperName name) (directory : String) :
    parts (Path.join directory name) = parts directory ++ [name] := by
  unfold Path.join
  split
  · next start =>
    rw [Bool.or_eq_true] at start
    rcases start with empty | slash
    · obtain rfl : directory = "" := by simpa using empty
      rw [String.empty_append, parts_of_noSlash h.filled h.slash, parts_empty, List.nil_append]
    · obtain ⟨front, rfl⟩ := exists_eq_append_slash slash
      rw [parts_append_slash, parts_slash, parts_of_noSlash h.filled h.slash]
  · rw [parts_append_slash, parts_of_noSlash h.filled h.slash]

/-- The joined path ends in the name. -/
theorem getLast?_join (h : ProperName name) (directory : String) :
    (Path.join directory name).toList.getLast? = name.toList.getLast? := by
  have some : name.toList.getLast?.isSome := by
    rw [List.getLast?_isSome, ne_eq, String.toList_eq_nil_iff]
    exact h.filled
  have last (front : String) : (front ++ name).toList.getLast? = name.toList.getLast? := by
    rw [String.toList_append, List.getLast?_append, Option.or_of_isSome some]
  unfold Path.join
  split <;> exact last _

theorem endsInSlash_join (h : ProperName name) (directory : String) :
    endsInSlash (Path.join directory name) = false := by
  rw [endsInSlash, h.getLast?_join, beq_eq_false_iff_ne]
  exact fun last => h.slash (List.mem_of_getLast? last)

theorem steps_join (h : ProperName name) (directory : String) :
    steps (Path.join directory name) = parts directory ++ [name] := by
  rw [steps, h.endsInSlash_join, if_neg Bool.false_ne_true, h.parts_join]

/-- The last component of a path is its name. -/
theorem name?_eq (h : ProperName name) {path : String} (front : List String)
    (cut : parts path = front ++ [name]) : Path.name? path = some name := by
  have split : Path.components path = (parts path).filter (· != ".") := by
    rw [Path.components, parts, List.filter_filter]
    exact List.filter_congr fun c _ => Bool.and_comm _ _
  have last : (Path.components path).getLast? = some name := by
    simp [split, cut, h.here]
  unfold Path.name?
  rw [last]
  split
  · next up => exact absurd (Option.some.inj up) h.up
  · rfl

theorem name?_self (h : ProperName name) : Path.name? name = some name :=
  h.name?_eq [] (parts_of_noSlash h.filled h.slash)

theorem name?_join (h : ProperName name) (directory : String) :
    Path.name? (Path.join directory name) = some name :=
  h.name?_eq (parts directory) (h.parts_join directory)

/-- The extension of a joined path is that of the name. -/
theorem extension?_join (h : ProperName name) (directory : String) :
    Path.extension? (Path.join directory name) = Path.extension? name := by
  rw [Path.extension?, Path.extension?, h.name?_join, h.name?_self]

/-- A joined path has a NUL only if the directory's path has one. -/
theorem nul_join (h : ProperName name) (nul : '\x00' ∉ directory.toList) :
    '\x00' ∉ (Path.join directory name).toList := by
  have slash : '\x00' ∉ ("/" : String).toList := by decide
  unfold Path.join
  split <;> simp [nul, h.nul]

theorem join_ne_empty (h : ProperName name) (directory : String) :
    Path.join directory name ≠ "" := by
  unfold Path.join
  split <;> simp [h.filled]

end ProperName

end HackPlatform
