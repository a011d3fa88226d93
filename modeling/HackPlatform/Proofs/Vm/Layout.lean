import HackPlatform.Proofs.Text.Layout
import HackPlatform.Proofs.Vm.Alike
import HackPlatform.Proofs.Vm.Cursor

/-!
# The layout of sources

Sources that are laid out anew hand out the same commands and the same faults in the same order, so
they are translated to the same text or fail for the same reason at the same line, whatever number
that line has now.
-/

namespace HackPlatform.Vm

/-- A source text of a unit and the text that it is rewritten to. The pairs are the numbers of a line
in the two. -/
structure Rewriting where
  unit : String
  before : String
  after : String
  pairs : List (Nat × Nat)
  relaid : Text.Relaid 1 1 before.toList after.toList pairs

namespace Rewriting

/-- The unit as it was. -/
def old (r : Rewriting) : String × String :=
  (r.unit, r.before)

/-- The unit as it is now. -/
def new (r : Rewriting) : String × String :=
  (r.unit, r.after)

/-- A line of the two texts. -/
structure Same (r : Rewriting) (a b : SourceLine) : Prop where
  numbers : (a.number, b.number) ∈ r.pairs
  words : Command.wordsOf a.text = Command.wordsOf b.text

theorem Same.parse {r : Rewriting} {a b : SourceLine} (h : r.Same a b) :
    Command.parse a.text = Command.parse b.text := by
  rw [Command.parse, Command.parse, h.words]

end Rewriting

/-- Lines with code, by number and words. -/
theorem coded_sourceLines (source : String) :
    ((sourceLines source).map fun line => (line.number, Text.words line.text.toList)) =
      Text.coded 1 source.toList := by
  rw [sourceLines, Text.numberedLines, Text.coded, List.map_map, List.filterMap_map,
    List.map_filterMap]
  refine List.filterMap_congr fun p _ => ?_
  by_cases none : Text.words (Text.beforeComment p.1) = []
  · simp [Text.codeWords, Text.trim_eq_nil_iff.2 none, none]
  · have some : Text.trim (Text.beforeComment p.1) ≠ [] := fun h => none (Text.trim_eq_nil_iff.1 h)
    simp [Text.codeWords, some, none, Text.words_trim]

theorem Rewriting.sourceLines_same (r : Rewriting) :
    List.Forall₂ r.Same (sourceLines r.before) (sourceLines r.after) := by
  have renumbered := r.relaid.renumbered
  rw [← coded_sourceLines, ← coded_sourceLines, List.forall₂_map_left_iff,
    List.forall₂_map_right_iff] at renumbered
  exact renumbered.imp fun a b alike => ⟨alike.1, congrArg (List.map String.ofList) alike.2⟩

/-- A line of one of the texts that were rewritten, in its unit. -/
def Rewritten (rs : List Rewriting) (unit : String) (a b : SourceLine) : Prop :=
  ∃ r ∈ rs, r.unit = unit ∧ r.Same a b

theorem Rewritten.parse {rs : List Rewriting} {unit : String} {a b : SourceLine}
    (h : Rewritten rs unit a b) : Command.parse a.text = Command.parse b.text := by
  obtain ⟨r, -, -, same⟩ := h
  exact same.parse

theorem sameUnit_rewritten (rs : List Rewriting) :
    List.Forall₂ (SameUnit (Rewritten rs)) (rs.map Rewriting.old) (rs.map Rewriting.new) := by
  rw [List.forall₂_map_left_iff, List.forall₂_map_right_iff, List.forall₂_same]
  intro r mem
  exact ⟨rfl, r.sourceLines_same.imp fun a b same => ⟨r, mem, rfl, same⟩⟩

/-- Layout makes no difference. Of a source that is laid out anew, the same commands and the same
faults are handed out, with the numbers that their lines have now. Units all of which are laid out
anew are translated to the same text, or to errors with one cause at one line. -/
theorem layout_ignored (rs : List Rewriting) (bootstrap : Bool) (config : Config) :
    (∀ r ∈ rs, ∀ n, List.Forall₂ (fun x y => r.Same x.1 y.1 ∧ x.2 = y.2)
      ((Cursor.ofSource r.unit r.before).handOut n) ((Cursor.ofSource r.unit r.after).handOut n)) ∧
    Corresponds (SameFault (Rewritten rs))
      (translateSources (rs.map Rewriting.old) bootstrap config)
      (translateSources (rs.map Rewriting.new) bootstrap config) := by
  refine ⟨fun r mem n => ?_,
    translateSources_corresponds (fun _ _ _ => Rewritten.parse) (sameUnit_rewritten rs) bootstrap config⟩
  have same := List.forall₂_take n r.sourceLines_same
  rw [Cursor.handOut_eq, Cursor.handOut_eq, List.forall₂_map_left_iff, List.forall₂_map_right_iff]
  exact same.imp fun a b alike => ⟨alike, alike.parse⟩

/-- Three lines are laid out anew with comments, other gaps and other ends of lines. -/
theorem relaid_spread : Text.Relaid 1 1 "push constant 7\nadd\nfrob 1\n".toList
    "// sum\n\tpush  constant 7 // seven\r\n\n add\u2003\r\nfrob 1 // what".toList
    [(1, 2), (2, 4), (3, 5)] := by
  have gap {s : List Char} (blank : s.all Text.isBlank = true) (single : '\n' ∉ s) : Text.Gap s :=
    ⟨List.all_eq_true.1 blank, single⟩
  have empty : Text.Gap [] := gap rfl (by decide)
  have space : Text.Gap [' '] := gap rfl (by decide)
  have spaces : Text.Gap [' ', ' '] := gap rfl (by decide)
  have tab : Text.Gap ['\t'] := gap rfl (by decide)
  have wide : Text.Gap ['\u2003'] := gap rfl (by decide)
  have apart : Text.Retouched ("\tpush".toList ++ [' '] ++ "constant 7".toList)
      ("\tpush".toList ++ [' ', ' '] ++ "constant 7".toList) :=
    .between space (by decide) spaces (by decide)
  have noted (line note : List Char) (single : '\n' ∉ note) :
      Text.Retouched line (line ++ [' '] ++ '/' :: '/' :: note) :=
    .comment space (space.getLast?_append (List.cons_ne_nil _ _)) single
  have push : Relation.ReflTransGen Text.Retouched "push constant 7".toList
      "\tpush  constant 7 // seven".toList :=
    .tail (.tail (.single (.before tab)) apart) (noted _ " seven".toList (by decide))
  have add : Relation.ReflTransGen Text.Retouched "add".toList " add\u2003".toList :=
    .tail (.single (.before space)) (.after wide)
  have frob : Relation.ReflTransGen Text.Retouched "frob 1".toList "frob 1 // what".toList :=
    .single (noted _ " what".toList (by decide))
  have sum : Text.Bare "// sum".toList := .comment empty (by decide)
  have third := Text.Relaid.kept (by decide) frob (.feed []) .last (.done 4 6)
  have second := Text.Relaid.kept (by decide) add (.feed _) (.returnFeed _) third
  have between := Text.Relaid.inserted (.blank empty) (.feed _) second
  have first := Text.Relaid.kept (by decide) push (.feed _) (.returnFeed _) between
  exact Text.Relaid.inserted sum (.feed _) first

/-- The third of these lines is no command. -/
def spread : Rewriting where
  unit := "Main"
  before := "push constant 7\nadd\nfrob 1\n"
  after := "// sum\n\tpush  constant 7 // seven\r\n\n add\u2003\r\nfrob 1 // what"
  pairs := [(1, 2), (2, 4), (3, 5)]
  relaid := relaid_spread

/-- The unknown command is found in both texts, each with its own number. -/
theorem layout_ignored_spread :
    translateSources [("Main", "push constant 7\nadd\nfrob 1\n")] false
        ⟨.auto, "Sys.init", 256, false⟩ =
      .error (.parse "Main" 3 "frob 1" (.unknownCommand "frob")) ∧
    ∃ text, translateSources
        [("Main", "// sum\n\tpush  constant 7 // seven\r\n\n add\u2003\r\nfrob 1 // what")] false
        ⟨.auto, "Sys.init", 256, false⟩ =
      .error (.parse "Main" 5 text (.unknownCommand "frob")) := by
  have known : translateSources [spread.old] false ⟨.auto, "Sys.init", 256, false⟩ =
      .error (.parse "Main" 3 "frob 1" (.unknownCommand "frob")) := rfl
  obtain ⟨-, results⟩ := layout_ignored [spread] false ⟨.auto, "Sys.init", 256, false⟩
  refine ⟨known, ?_⟩
  rw [List.map_singleton, List.map_singleton, known] at results
  generalize there : translateSources [spread.new] false ⟨.auto, "Sys.init", 256, false⟩ = answer
    at results
  cases results with
  | error fault =>
    generalize here : TranslateError.parse "Main" 3 "frob 1" (.unknownCommand "frob") = e at fault
    cases fault with
    | @parse unit a b same cause =>
      obtain ⟨r, mem, rfl, same⟩ := same
      obtain rfl := List.mem_singleton.1 mem
      obtain ⟨-, three, -, rfl⟩ := TranslateError.parse.inj here
      have numbers : (a.number, b.number) ∈ [(1, 2), (2, 4), (3, 5)] := same.numbers
      have five : b.number = 5 := by
        rw [← three] at numbers
        simpa using numbers
      rw [five] at there
      exact ⟨b.text, there⟩
    | emit => cases here
    | bootstrap => cases here

end HackPlatform.Vm
