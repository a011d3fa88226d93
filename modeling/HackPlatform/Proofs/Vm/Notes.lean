import HackPlatform.Proofs.Vm.Reading
import HackPlatform.Proofs.Vm.Verdict

/-!
# Notes

Notes stand in front of blocks and repeat what these were written for. The assembler takes them for
comments, so a translation with notes assembles to the program of the one without; only the numbers
of lines, which errors name, are others.
-/

namespace HackPlatform.Vm

/-- The block without its note. -/
def Site.bare (s : Site) : Site :=
  { s with note := none }

theorem bare_sitesFrom (annotate : Bool) (s : Scope) (commands : List Command) :
    (sitesFrom annotate s commands).map Site.bare = sitesFrom false s commands := by
  induction commands generalizing s with
  | nil => rfl
  | cons c commands ih =>
    rw [sitesFrom, sitesFrom, List.map_cons, ih]
    rfl

theorem bare_unitSites (annotate : Bool) (count : Nat) (units : List (String × String)) :
    (unitSites annotate count units).map Site.bare = unitSites false count units := by
  induction units generalizing count with
  | nil => rfl
  | cons unit units ih => rw [unitSites, unitSites, List.map_append, bare_sitesFrom, ih]

/-- The outline without notes is the outline of the translation without notes. -/
theorem bare_outline (units : List (String × String)) (bootstrap : Bool) (config : Config) :
    (outline units bootstrap config).map Site.bare =
      outline units bootstrap { config with annotate := false } := by
  cases bootstrap with
  | false => exact bare_unitSites config.annotate 0 units
  | true =>
    rw [outline, outline, if_pos rfl, if_pos rfl, List.map_append, bare_unitSites]
    rfl

theorem codeOf_bare (sites : List Site) : codeOf (sites.map Site.bare) = codeOf sites := by
  rw [codeOf, codeOf, List.flatMap_map]
  rfl

/-- Whether notes are written or not, the translation fails with the same error or not at all; and
then both texts assemble to the same program, or to the same error up to the number of its line. -/
theorem notes_keep_program (units : List (String × String)) (bootstrap : Bool) (config : Config) :
    (∃ e, translateSources units bootstrap { config with annotate := true } = .error e ∧
        translateSources units bootstrap { config with annotate := false } = .error e) ∨
      ∃ text bare, translateSources units bootstrap { config with annotate := true } = .ok text ∧
        translateSources units bootstrap { config with annotate := false } = .ok bare ∧
        ((∃ p, Asm.assemble text = .ok p ∧ Asm.assemble bare = .ok p) ∨
          ∃ e e', Asm.assemble text = .error e ∧ Asm.assemble bare = .error e' ∧
            e.unlocated = e'.unlocated) := by
  have verdicts := @verdict_translateSources_congr { config with annotate := true }
    { config with annotate := false } rfl rfl units bootstrap
  have code : unnumbered (outline units bootstrap { config with annotate := true }) =
      unnumbered (outline units bootstrap { config with annotate := false }) := by
    rw [← bare_outline units bootstrap { config with annotate := true }, unnumbered, unnumbered,
      codeOf_bare]
  obtain ⟨e, first, second⟩ | ⟨text, bare, first, second⟩ := verdict_cases verdicts
  · exact .inl ⟨e, first, second⟩
  · refine .inr ⟨text, bare, first, second, Asm.unlocated_cases ?_⟩
    rw [assemble_outline first, assemble_outline second, code]

end HackPlatform.Vm
