import HackPlatform.Proofs.Vm.Frame
import HackPlatform.Proofs.Vm.Reading

/-!
# The image of a translation

The blocks of a translation that assembles lie in instruction memory one behind the other. Each
starts where the words before it end, registers have their cells, and a label of a block has the
address at which it stands.
-/

namespace HackPlatform.Vm

open Asm (Statement Stands wordCount behind toUInt16_add)

/-- The blocks are those of a translation, and the program is what its text assembles to. -/
structure Image (sites : List Site) (p : Asm.Program) : Prop where
  sound : ∀ s ∈ sites, s.Sound
  assembled : Asm.Assembled ((codeOf sites).map (Statement.map Symbol.text)) p

/-- The address of a name. -/
def addressOf (p : Asm.Program) (a : Symbol) : UInt16 :=
  p.symbols.address a.text

/-- The address at which a block starts, or behind the last block the end of the program. -/
def startOf (sites : List Site) (k : Nat) : UInt16 :=
  (wordCount (codeOf (sites.take k))).toUInt16

/-- The words of the first blocks are among those of all. -/
theorem wordCount_take_le (sites : List Site) (k : Nat) :
    wordCount (codeOf (sites.take k)) ≤ wordCount (codeOf sites) := by
  have whole : codeOf sites = codeOf (sites.take k) ++ codeOf (sites.drop k) := by
    rw [codeOf, codeOf, codeOf, ← List.flatMap_append, List.take_append_drop]
  rw [whole, Asm.wordCount_append]
  exact Nat.le_add_right _ _

/-- The words up to the end of a block. -/
theorem wordCount_take_succ {sites : List Site} {k : Nat} {s : Site} (site : sites[k]? = some s) :
    wordCount (codeOf (sites.take (k + 1))) = wordCount (codeOf (sites.take k)) + wordCount s.code := by
  have cut : sites.take (k + 1) = sites.take k ++ [s] := by
    rw [List.take_add_one, site]
    rfl
  rw [codeOf, cut, List.flatMap_append, List.flatMap_singleton, Asm.wordCount_append]
  rfl

theorem image_of_translation {units : List (String × String)} {bootstrap : Bool} {config : Config}
    {text : String} {p : Asm.Program} (translated : translateSources units bootstrap config = .ok text)
    (assembled : Asm.assemble text = .ok p) : Image (outline units bootstrap config) p := by
  obtain ⟨sound, all⟩ := assembled_outline translated assembled
  exact ⟨sound, all⟩

/-- A block ends where the next one starts. -/
theorem startOf_succ {sites : List Site} {k : Nat} {s : Site} (site : sites[k]? = some s) :
    startOf sites (k + 1) = behind (startOf sites k) s.code := by
  rw [startOf, wordCount_take_succ site, toUInt16_add]
  rfl

namespace Image

variable {sites : List Site} {p : Asm.Program} (image : Image sites p)

include image

theorem stands_all : Stands ⟨p.words⟩ (addressOf p) 0 (codeOf sites) := by
  refine Asm.stands_map.1 (image.assembled.stands ?_)
  intro i mem
  obtain ⟨st, there, same⟩ := List.mem_map.1 mem
  obtain ⟨s, member, inside⟩ := List.mem_flatMap.1 there
  have word := (image.sound s member).proper st inside
  rw [same] at word
  exact word

/-- Every block stands at its start. -/
theorem stands {k : Nat} {s : Site} (site : sites[k]? = some s) :
    Stands ⟨p.words⟩ (addressOf p) (startOf sites k) s.code := by
  obtain ⟨inside, here⟩ := List.getElem?_eq_some_iff.1 site
  have cut : sites = sites.take k ++ s :: sites.drop (k + 1) := by
    rw [← here, List.getElem_cons_drop, List.take_append_drop]
  have all := image.stands_all
  rw [cut, codeOf, List.flatMap_append, List.flatMap_cons, Asm.stands_append,
    Asm.stands_append] at all
  have start : behind 0 ((sites.take k).flatMap Site.code) = startOf sites k := UInt16.zero_add _
  rw [start] at all
  exact all.2.1

theorem registers : Code.RegistersAt (addressOf p) := by
  intro r
  refine image.assembled.predefined ?_
  cases r <;> decide

/-- A block is sound. -/
theorem sound_at {k : Nat} {s : Site} (site : sites[k]? = some s) : s.Sound :=
  image.sound s (List.mem_of_getElem? site)

/-- The program has at most one word for every address, so a start is the number of the words
before it. -/
theorem toNat_startOf (k : Nat) : (startOf sites k).toNat = wordCount (codeOf (sites.take k)) := by
  have fits := image.assembled.fits
  rw [Asm.wordCount_map] at fits
  have before := wordCount_take_le sites k
  exact Asm.toNat_toUInt16 (by omega)

/-- Blocks start one behind the other. -/
theorem startOf_mono {j k : Nat} (h : j ≤ k) :
    (startOf sites j).toNat ≤ (startOf sites k).toNat := by
  rw [image.toNat_startOf, image.toNat_startOf, ← Nat.min_eq_left h, ← List.take_take]
  exact wordCount_take_le _ _

/-- The block of a command stands at its start. -/
theorem stands_command {k : Nat} {c : Command} (here : TaskAt sites k (.command c)) :
    ∃ scope, Asm.Stands ⟨p.words⟩ (addressOf p) (startOf sites k) (c.code scope) ∧
      startOf sites (k + 1) = Asm.behind (startOf sites k) (c.code scope) := by
  obtain ⟨⟨scope, note, task⟩, site, rfl⟩ := here
  have code : Site.code ⟨scope, note, .command c⟩ = c.code scope := rfl
  have stands := image.stands site
  have next := startOf_succ site
  rw [code] at stands next
  exact ⟨scope, stands, next⟩

/-- A function's name stands for the start of its block. -/
theorem address_function {k : Nat} {f : String} {locals : UInt16}
    (here : TaskAt sites k (.command (.function f locals))) :
    addressOf p (.function f) = startOf sites k := by
  obtain ⟨scope, stands, -⟩ := image.stands_command here
  exact stands.1

end Image

end HackPlatform.Vm
