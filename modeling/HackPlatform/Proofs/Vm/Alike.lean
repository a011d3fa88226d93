import Mathlib.Data.List.Forall2
import HackPlatform.Proofs.Vm.Outline

/-!
# Sources that read alike

A translation looks at what the lines of its sources read as, and at nothing else of them but the
place and the text that an error names. Units whose lines read alike, one by one, are translated to
the same text, or fail for the same reason at lines that stand for each other.
-/

namespace HackPlatform.Vm

/-- Two results are the same value, or errors that are related. -/
inductive Corresponds {ε α : Type} (R : ε → ε → Prop) : Except ε α → Except ε α → Prop
  | ok (a : α) : Corresponds R (.ok a) (.ok a)
  | error {e e' : ε} (related : R e e') : Corresponds R (.error e) (.error e')

/-- Two errors have one cause: at lines of one unit that stand for each other, or at the
bootstrap. -/
inductive SameFault (P : String → SourceLine → SourceLine → Prop) :
    TranslateError → TranslateError → Prop
  | parse {unit : String} {a b : SourceLine} (same : P unit a b) (cause : ParseError) :
      SameFault P (.parse unit a.number a.text cause) (.parse unit b.number b.text cause)
  | emit {unit : String} {a b : SourceLine} (same : P unit a b) (cause : EmitError) :
      SameFault P (.emit unit a.number a.text cause) (.emit unit b.number b.text cause)
  | bootstrap (text : String) (cause : EmitError) :
      SameFault P (.emit "<bootstrap>" 0 text cause) (.emit "<bootstrap>" 0 text cause)

/-- Two answers leave the same behind, and their results correspond. -/
inductive Agreeing {τ α : Type} (P : String → SourceLine → SourceLine → Prop) :
    τ × Except TranslateError α → τ × Except TranslateError α → Prop
  | mk (t : τ) {x y : Except TranslateError α} (results : Corresponds (SameFault P) x y) :
      Agreeing P (t, x) (t, y)

/-- Two units have one name, and their lines stand for each other one by one. -/
structure SameUnit (P : String → SourceLine → SourceLine → Prop) (u v : String × String) : Prop where
  name : u.1 = v.1
  lines : List.Forall₂ (P u.1) (sourceLines u.2) (sourceLines v.2)

/-- Lists that are mapped to the same list, member by member. -/
theorem forall₂_of_map_eq {α β : Type} {f : α → β} {xs ys : List α} (same : xs.map f = ys.map f) :
    List.Forall₂ (fun x y => f x = f y) xs ys := by
  rw [← List.forall₂_map_left_iff (R := fun b y => b = f y), ← List.forall₂_map_right_iff, same]
  exact List.forall₂_same.2 fun _ _ => rfl

section

variable {σ : Type} [Sink σ] {P : String → SourceLine → SourceLine → Prop}
  (reads : ∀ unit a b, P unit a b → Command.parse a.text = Command.parse b.text)

include reads

namespace Translator

theorem writeLines_agreeing {unit : String} {lines others : List SourceLine}
    (same : List.Forall₂ (P unit) lines others) (done : Nat) (w : Writer σ) :
    Agreeing P (writeLines unit done w lines) (writeLines unit done w others) := by
  induction same generalizing done w with
  | nil => exact .mk w (.ok done)
  | @cons a b lines others first _ ih =>
    rw [writeLines, writeLines, ← reads unit a b first]
    cases Command.parse a.text with
    | error cause => exact .mk w (.error (.parse first cause))
    | ok c =>
      dsimp only
      cases w.write c with
      | mk v result =>
        cases result with
        | ok _ => exact ih (done + 1) v
        | error cause => exact .mk v (.error (.emit first cause))

theorem translateUnits_agreeing {units others : List (String × String)}
    (same : List.Forall₂ (SameUnit P) units others) (t : Translator σ) :
    Agreeing P (t.translateUnits units) (t.translateUnits others) := by
  induction same generalizing t with
  | nil => exact .mk t (.ok ())
  | @cons u v units others first _ ih =>
    obtain ⟨unit, source⟩ := u
    obtain ⟨name, other⟩ := v
    obtain rfl : unit = name := first.name
    have lines : List.Forall₂ (P unit) (sourceLines source) (sourceLines other) := first.lines
    have written := writeLines_agreeing reads lines 0 (t.writer.setUnit unit)
    simp only [translateUnits, translateSource_eq]
    generalize writeLines unit 0 (t.writer.setUnit unit) (sourceLines source) = x at written ⊢
    generalize writeLines unit 0 (t.writer.setUnit unit) (sourceLines other) = y at written ⊢
    cases written with
    | mk w results =>
      cases results with
      | error fault => exact .mk _ (.error fault)
      | ok n => exact ih ⟨w, t.config⟩

end Translator

theorem translateOnto_agreeing {units others : List (String × String)}
    (same : List.Forall₂ (SameUnit P) units others) (t : Translator σ) (bootstrap : Bool) :
    Agreeing P (translateOnto t units bootstrap) (translateOnto t others bootstrap) := by
  cases bootstrap with
  | false => exact t.translateUnits_agreeing reads same
  | true =>
    obtain ⟨writer, config⟩ := t
    simp only [translateOnto, Translator.bootstrap, if_true]
    cases writer.bootstrap config.stackBase config.entry with
    | mk w result =>
      cases result with
      | ok _ => exact Translator.translateUnits_agreeing reads same ⟨w, config⟩
      | error cause => exact .mk _ (.error (.bootstrap _ cause))

theorem translateSources_corresponds {units others : List (String × String)}
    (same : List.Forall₂ (SameUnit P) units others) (bootstrap : Bool) (config : Config) :
    Corresponds (SameFault P) (translateSources units bootstrap config)
      (translateSources others bootstrap config) := by
  have onto := translateOnto_agreeing reads same (.new Page.empty config) bootstrap
  simp only [translateSources, translate]
  generalize translateOnto (.new Page.empty config) units bootstrap = x at onto ⊢
  generalize translateOnto (.new Page.empty config) others bootstrap = y at onto ⊢
  cases onto with
  | mk t results =>
    cases results with
    | ok _ => exact .ok t.writer.sink.text
    | error fault => exact .error fault

end

end HackPlatform.Vm
