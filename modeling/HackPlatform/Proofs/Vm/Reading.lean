import HackPlatform.Asm.Program
import HackPlatform.Proofs.Asm.Layout
import HackPlatform.Proofs.Vm.Sites
import HackPlatform.Proofs.Vm.Spelling

/-!
# Reading the output

The text of a translation reads back as the statements of its blocks. Notes are comments, and no
line feed gets into a note, so each line of the output is one line of assembly source.
-/

namespace HackPlatform.Vm

open Asm (Statement Located isName readLine readSource)

/-- The characters of a line, without the line feed. -/
def Line.body : Line → List Char
  | .note text => '/' :: '/' :: ' ' :: text.toList
  | .code s => (s.map Symbol.text).text.toList

/-- A line that is one line of assembly source. -/
def Line.Readable : Line → Prop
  | .note text => '\n' ∉ text.toList
  | .code s => (s.map Symbol.text).Proper

/-- The statement of a line, if it is no note. -/
def Line.statement? : Line → Option (Statement String)
  | .note _ => none
  | .code s => some (s.map Symbol.text)

theorem Line.toList_text (line : Line) : line.text.toList = line.body ++ ['\n'] := by
  cases line with
  | note text => simp [Line.text, body]
  | code s => simp [Line.text, body]

theorem Page.toList_text (page : Page) :
    page.text.toList = (page.lines.toList.map Line.body).flatMap (· ++ ['\n']) := by
  rw [Page.text, ← Array.foldl_toList, Text.toList_foldl_append, List.flatMap_map]
  simp only [Line.toList_text, String.toList_empty, List.nil_append]

theorem Line.Readable.no_break {line : Line} (h : line.Readable) : '\n' ∉ line.body := by
  cases line with
  | note text =>
    have inside : '\n' ∉ text.toList := h
    simpa [body] using inside
  | code s =>
    intro mem
    have blank := Statement.Proper.blanks h _ mem
    exact absurd blank (by decide)

/-- What is left of a line when it is cleaned. -/
def cleaned (raw : List Char) : List Char :=
  Text.squeeze (Text.beforeComment (Text.dropReturn raw))

theorem cleaned_note (text : String) : cleaned (Line.note text).body = [] := by
  have comment : ∃ rest, Text.dropReturn (Line.note text).body = '/' :: '/' :: rest := by
    unfold Text.dropReturn
    split
    · exact ⟨_, by rw [Line.body, List.dropLast_cons_cons, List.dropLast_cons_cons]⟩
    · exact ⟨_, rfl⟩
  obtain ⟨rest, comment⟩ := comment
  rw [cleaned, comment, Text.beforeComment_comment]
  rfl

theorem cleaned_code {s : Statement Symbol} (h : (Line.code s).Readable) :
    cleaned (Line.code s).body = (s.map Symbol.text).text.toList := by
  have proper : (s.map Symbol.text).Proper := h
  rw [cleaned, Line.body, Text.dropReturn_eq_self proper.blanks, proper.cleaned]

/-- Numbered lines of output read as their statements. -/
theorem mapM_readLine {lines : List Line} (readable : ∀ l ∈ lines, l.Readable) (start : Nat) :
    ∃ located, ((((lines.map Line.body).zipIdx start).map fun l => (l.2, cleaned l.1)).filter
        fun l => !l.2.isEmpty).mapM readLine = .ok located ∧
      Asm.statementsOf located = lines.filterMap Line.statement? := by
  induction lines generalizing start with
  | nil => exact ⟨[], rfl, rfl⟩
  | cons line lines ih =>
    rw [List.forall_mem_cons] at readable
    obtain ⟨located, read, statements⟩ := ih readable.2 (start + 1)
    cases line with
    | note text =>
      refine ⟨located, ?_, statements⟩
      simpa [cleaned_note] using read
    | code s =>
      have proper : (s.map Symbol.text).Proper := readable.1
      refine ⟨⟨start, s.map Symbol.text⟩ :: located, ?_, ?_⟩
      · have filled := Statement.text_ne_nil proper
        have first : readLine (start, (s.map Symbol.text).text.toList) =
            .ok ⟨start, s.map Symbol.text⟩ := by
          rw [readLine, Statement.read_text proper]
        simp [cleaned_code readable.1, filled, first, read, bind, Except.bind, pure, Except.pure]
      · simp only [Asm.statementsOf, List.map_cons] at statements ⊢
        rw [statements]
        rfl

theorem readSource_page {page : Page} (readable : ∀ l ∈ page.lines.toList, l.Readable) :
    ∃ located, readSource page.text = .ok located ∧
      Asm.statementsOf located = page.lines.toList.filterMap Line.statement? := by
  have breaks : ∀ raw ∈ page.lines.toList.map Line.body, '\n' ∉ raw := by
    intro raw mem
    obtain ⟨line, there, rfl⟩ := List.mem_map.1 mem
    exact (readable line there).no_break
  have code : Asm.codeLines page.text.toList =
      ((((page.lines.toList.map Line.body).zipIdx 1).map fun l => (l.2, cleaned l.1)).filter
        fun l => !l.2.isEmpty) := by
    rw [Asm.codeLines, Text.numberedLines, Page.toList_text, Text.lines_flatMap breaks,
      List.zipIdx_map]
    simp [cleaned, Function.comp_def]
  rw [readSource, code]
  exact mapM_readLine readable 1

/-! ## Notes -/

/-- The note of a block, if it has one, is its command or the word for the bootstrap. -/
def Site.NotePlain (s : Site) : Prop :=
  ∀ text ∈ s.note, text = "bootstrap" ∨ ∃ c, s.task = .command c ∧ text = c.text

theorem notePlain_noted {annotate : Bool} {scope : Scope} {c : Command} :
    Site.NotePlain ⟨scope, noted annotate c.text, .command c⟩ := by
  intro text note
  cases annotate with
  | true =>
    cases note
    exact .inr ⟨c, rfl, rfl⟩
  | false => cases note

theorem unitSites_notePlain (annotate : Bool) (count : Nat) (units : List (String × String)) :
    ∀ s ∈ unitSites annotate count units, s.NotePlain := by
  have commands (scope : Scope) (cs : List Command) :
      ∀ s ∈ sitesFrom annotate scope cs, s.NotePlain := by
    induction cs generalizing scope with
    | nil => exact List.forall_mem_nil _
    | cons c cs ih => exact List.forall_mem_cons.2 ⟨notePlain_noted, ih _⟩
  induction units generalizing count with
  | nil => exact List.forall_mem_nil _
  | cons unit units ih => exact List.forall_mem_append.2 ⟨commands _ _, ih _⟩

theorem outline_notePlain (units : List (String × String)) (bootstrap : Bool) (config : Config) :
    ∀ s ∈ outline units bootstrap config, s.NotePlain := by
  cases bootstrap with
  | false => exact unitSites_notePlain _ _ _
  | true =>
    refine List.forall_mem_append.2 ⟨?_, unitSites_notePlain _ _ _⟩
    intro s mem text note
    simp only [bootSites, List.mem_cons, List.not_mem_nil, or_false] at mem
    obtain rfl | rfl := mem
    · cases wanted : config.annotate <;> rw [wanted] at note <;> cases note
      exact .inl rfl
    · cases note

/-- No line of a sound block has an end inside. -/
theorem Site.Sound.endsLine_body {s : Site} (h : s.Sound) (plain : s.NotePlain) :
    ∀ line ∈ s.lines, ∀ x ∈ line.body, Text.endsLine x = false := by
  refine List.forall_mem_append.2 ⟨?_, ?_⟩
  · intro line mem
    obtain ⟨text, note, rfl⟩ := List.mem_map.1 mem
    have ends : ∀ x ∈ text.toList, Text.endsLine x = false := by
      obtain rfl | ⟨c, task, rfl⟩ := plain text (Option.mem_toList.1 note)
      · have all : ("bootstrap".toList.all fun x => !Text.endsLine x) = true := by decide
        simpa using all
      · have allowed := h.allowed
        rw [Site.Allowed, task] at allowed
        exact Command.endsLine_text allowed
    simpa +decide [Line.body] using ends
  · intro line mem
    obtain ⟨st, there, rfl⟩ := List.mem_map.1 mem
    exact (h.proper st there).endsLine_text

/-- The lines of a sound block are lines of assembly source. -/
theorem Site.Sound.readable {s : Site} (h : s.Sound) (plain : s.NotePlain) :
    ∀ line ∈ s.lines, line.Readable := by
  intro line mem
  have ends := h.endsLine_body plain line mem
  obtain mem | mem := List.mem_append.1 mem
  · obtain ⟨text, note, rfl⟩ := List.mem_map.1 mem
    intro feed
    exact absurd (ends '\n' (by simpa [Line.body] using feed)) (by decide)
  · obtain ⟨st, there, rfl⟩ := List.mem_map.1 mem
    exact h.proper st there

/-- The statements of blocks, one block after the other. -/
def codeOf (sites : List Site) : List (Statement Symbol) :=
  sites.flatMap Site.code

theorem filterMap_statement? (sites : List Site) :
    (sites.flatMap Site.lines).filterMap Line.statement? =
      (codeOf sites).map (Statement.map Symbol.text) := by
  have notes (l : List String) : (l.map Line.note).filterMap Line.statement? = [] := by
    simp [List.filterMap_map, Line.statement?, Function.comp_def]
  have code (l : List (Statement Symbol)) :
      (l.map Line.code).filterMap Line.statement? = l.map (Statement.map Symbol.text) := by
    simp [List.filterMap_map, Line.statement?, Function.comp_def]
  induction sites with
  | nil => rfl
  | cons s sites ih =>
    rw [List.flatMap_cons, List.filterMap_append, ih, codeOf, codeOf, List.flatMap_cons,
      List.map_append, Site.lines, List.filterMap_append, notes, code]
    rfl

theorem outline_readable {units : List (String × String)} {bootstrap : Bool} {config : Config}
    (sound : ∀ s ∈ outline units bootstrap config, s.Sound) :
    ∀ l ∈ (outline units bootstrap config).flatMap Site.lines, l.Readable := by
  intro l mem
  obtain ⟨s, member, mem⟩ := List.mem_flatMap.1 mem
  exact (sound s member).readable (outline_notePlain _ _ _ s member) l mem

/-- The text of a translation reads as the code of its blocks, all of which are sound. -/
theorem readSource_outline {units : List (String × String)} {bootstrap : Bool} {config : Config}
    {text : String} (h : translateSources units bootstrap config = .ok text) :
    (∀ s ∈ outline units bootstrap config, s.Sound) ∧
      ∃ located, readSource text = .ok located ∧ Asm.statementsOf located =
        (codeOf (outline units bootstrap config)).map (Statement.map Symbol.text) := by
  obtain ⟨page, written, rfl⟩ := translateSources_eq_ok h
  obtain ⟨lines, allowed⟩ := translate_outline written
  have sound := outline_sound allowed
  have readable : ∀ l ∈ page.lines.toList, l.Readable := lines ▸ outline_readable sound
  obtain ⟨located, read, statements⟩ := readSource_page readable
  rw [lines, filterMap_statement?] at statements
  exact ⟨sound, located, read, statements⟩

/-- What assembles from the text of a translation is the code of its blocks. -/
theorem assembled_outline {units : List (String × String)} {bootstrap : Bool} {config : Config}
    {text : String} {p : Asm.Program} (translated : translateSources units bootstrap config = .ok text)
    (assembled : Asm.assemble text = .ok p) :
    (∀ s ∈ outline units bootstrap config, s.Sound) ∧
      Asm.Assembled ((codeOf (outline units bootstrap config)).map (Statement.map Symbol.text)) p := by
  obtain ⟨sound, located, read, statements⟩ := readSource_outline translated
  rw [Asm.assemble, read] at assembled
  have result := Asm.assembled_of_assembleStatements assembled
  rw [statements] at result
  exact ⟨sound, result⟩

/-- The code of blocks as source lines, of which none is numbered. -/
def unnumbered (sites : List Site) : List Located :=
  (codeOf sites).map fun s => ⟨0, s.map Symbol.text⟩

/-- A translation assembles like the code of its blocks, up to the numbers of lines in errors. -/
theorem assemble_outline {units : List (String × String)} {bootstrap : Bool} {config : Config}
    {text : String} (h : translateSources units bootstrap config = .ok text) :
    (Asm.assemble text).mapError Asm.Error.unlocated =
      (Asm.assembleStatements (unnumbered (outline units bootstrap config))).mapError
        Asm.Error.unlocated := by
  obtain ⟨-, located, read, statements⟩ := readSource_outline h
  rw [Asm.assemble, read]
  refine Asm.assembleStatements_unlocated (statements.trans ?_)
  simp [Asm.statementsOf, unnumbered, Function.comp_def]

/-- A translation whose blocks assemble gives a program. -/
theorem exists_program {units : List (String × String)} {bootstrap : Bool} {config : Config}
    (translates : (translateSources units bootstrap config).toOption.isSome = true)
    (assembles :
      (Asm.assembleStatements (unnumbered (outline units bootstrap config))).toOption.isSome = true) :
    ∃ text p, translateSources units bootstrap config = .ok text ∧ Asm.assemble text = .ok p := by
  obtain ⟨text, translated⟩ := Option.isSome_iff_exists.1 translates
  have translated := eq_ok_of_toOption translated
  obtain ⟨p, assembled⟩ := Option.isSome_iff_exists.1 assembles
  have assembled := eq_ok_of_toOption assembled
  obtain ⟨p, same, -⟩ | ⟨_, _, -, refused, -⟩ := Asm.unlocated_cases (assemble_outline translated)
  · exact ⟨text, p, translated, same⟩
  · rw [assembled] at refused
    cases refused

end HackPlatform.Vm
