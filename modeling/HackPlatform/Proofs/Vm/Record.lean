import HackPlatform.Proofs.Vm.Alike
import HackPlatform.Proofs.Vm.Reading

/-!
# Recorded sources

Of a source text only the commands matter that its lines read as. The notes of a translated unit
spell these commands, one a line, so they are a source text that is translated in the same way.
-/

namespace HackPlatform.Vm

open Asm (Statement)
open Text (endsLine)

/-- What the lines of a source text read as. -/
def readings (source : String) : List (Except ParseError Command) :=
  (sourceLines source).map fun line => Command.parse line.text

theorem length_readings (unit source : String) :
    (readings source).length = (Cursor.ofSource unit source).size := by
  rw [readings, List.length_map, Cursor.size, Cursor.ofSource, List.size_toArray]

theorem commandsOf_sourceLines (source : String) :
    commandsOf (sourceLines source) = (readings source).filterMap Except.toOption := by
  rw [commandsOf, readings, List.filterMap_map]
  rfl

namespace Translator

variable {σ : Type} [Sink σ]

/-- All lines that are written read as commands. -/
theorem writeLines_readings {unit : String} {done n : Nat} {w w' : Writer σ}
    {lines : List SourceLine} (h : writeLines unit done w lines = (w', .ok n)) :
    (lines.map fun line => Command.parse line.text) = (commandsOf lines).map .ok := by
  induction lines generalizing done w with
  | nil => rfl
  | cons line lines ih =>
    rw [writeLines] at h
    split at h
    · cases h
    · next c parsed =>
      have commands : commandsOf (line :: lines) = c :: commandsOf lines := by
        simp [commandsOf, parsed, Except.toOption]
      split at h
      · rw [commands, List.map_cons, List.map_cons, parsed, ih h]
      · cases h

theorem translateUnits_readings {t t' : Translator σ} {units : List (String × String)}
    (h : t.translateUnits units = (t', .ok ())) :
    ∀ unit ∈ units, readings unit.2 = (commandsOf (sourceLines unit.2)).map .ok := by
  induction units generalizing t with
  | nil => exact List.forall_mem_nil _
  | cons unit units ih =>
    obtain ⟨unit, source⟩ := unit
    rw [translateUnits] at h
    split at h
    · next v n done =>
      have wrote := (translateSource_eq_ok_iff.1 done).1
      exact List.forall_mem_cons.2 ⟨writeLines_readings wrote, ih h⟩
    · cases h

end Translator

/-- Sources that read alike have lines that read alike. -/
theorem sameUnit_of_readings {u v : String × String}
    (same : (u.1, readings u.2) = (v.1, readings v.2)) :
    SameUnit (fun _ a b => Command.parse a.text = Command.parse b.text) u v := by
  obtain ⟨name, read⟩ := Prod.mk.inj same
  rw [readings, readings] at read
  exact ⟨name, forall₂_of_map_eq read⟩

/-- A translation that succeeds depends on its sources through what their lines read as. -/
theorem translateSources_of_readings {units others : List (String × String)} {bootstrap : Bool}
    {config : Config} {text : String}
    (same : (units.map fun u => (u.1, readings u.2)) = others.map fun u => (u.1, readings u.2))
    (h : translateSources units bootstrap config = .ok text) :
    translateSources others bootstrap config = .ok text := by
  have alike := (forall₂_of_map_eq same).imp fun _ _ => sameUnit_of_readings
  have results := translateSources_corresponds (fun _ _ _ same => same) alike bootstrap config
  rw [h] at results
  generalize translateSources others bootstrap config = answer at results
  cases results
  rfl

/-- The lines of units that are translated all read as commands. -/
theorem readings_of_translateSources {units : List (String × String)} {bootstrap : Bool}
    {config : Config} {text : String} (h : translateSources units bootstrap config = .ok text) :
    ∀ unit ∈ units, readings unit.2 = (commandsOf (sourceLines unit.2)).map .ok := by
  obtain ⟨page, done, -⟩ := translateSources_eq_ok h
  obtain ⟨t, written, -⟩ := translate_eq_ok_iff.1 done
  obtain ⟨v, -, written⟩ := translateOnto_eq_ok_iff.1 written
  exact Translator.translateUnits_readings written

/-- The notes of a text, one a line: what follows `// ` in the lines that start with `//`. -/
def notesOf (text : String) : String :=
  "\n".intercalate (((Text.lines text.toList).filter fun l => ['/', '/'].isPrefixOf l).map
    fun l => String.ofList (l.drop 3))

/-- The text of a note. -/
def Line.note? : Line → Option String
  | note text => some text
  | code _ => none

/-- Among lines of assembly source, those that start with two slashes are the notes. -/
theorem notes_of_bodies {lines : List Line} (readable : ∀ l ∈ lines, l.Readable) :
    (((lines.map Line.body).filter fun l => ['/', '/'].isPrefixOf l).map
      fun l => String.ofList (l.drop 3)) = lines.filterMap Line.note? := by
  induction lines with
  | nil => rfl
  | cons line lines ih =>
    rw [List.forall_mem_cons] at readable
    have rest := ih readable.2
    cases line with
    | note text => simpa [Line.body, Line.note?] using rest
    | code s =>
      have proper : (s.map Symbol.text).Proper := readable.1
      have other : ['/', '/'].isPrefixOf (s.map Symbol.text).text.toList = false := by
        rw [Bool.eq_false_iff, ne_eq, List.isPrefixOf_iff_prefix]
        intro front
        have slash := front.subset (List.mem_cons_self (a := '/'))
        exact absurd (Statement.text_plain proper _ slash) (by decide)
      have skipped : (Line.code s :: lines).filterMap Line.note? = lines.filterMap Line.note? := rfl
      rw [skipped, List.map_cons, List.filter_cons, Line.body, other]
      exact rest

theorem filterMap_note? (sites : List Site) :
    (sites.flatMap Site.lines).filterMap Line.note? = sites.filterMap Site.note := by
  induction sites with
  | nil => rfl
  | cons s sites ih =>
    have code : (s.code.map Line.code).filterMap Line.note? = [] := by
      simp [List.filterMap_map, Function.comp_def, Line.note?]
    rw [List.flatMap_cons, List.filterMap_append, ih, Site.lines, List.filterMap_append, code]
    cases there : s.note <;> simp [there, Line.note?]

/-- The notes of commands are their texts. -/
theorem filterMap_note_sitesFrom (s : Scope) (commands : List Command) :
    (sitesFrom true s commands).filterMap Site.note = commands.map Command.text := by
  induction commands generalizing s with
  | nil => rfl
  | cons c commands ih => simp [sitesFrom, noted, ih]

/-- The notes of a text that was translated are those of its blocks. -/
theorem notesOf_translated {units : List (String × String)} {bootstrap : Bool} {config : Config}
    {text : String} (h : translateSources units bootstrap config = .ok text) :
    notesOf text = "\n".intercalate ((outline units bootstrap config).filterMap Site.note) := by
  obtain ⟨page, written, rfl⟩ := translateSources_eq_ok h
  obtain ⟨lines, allowed⟩ := translate_outline written
  have sound := outline_sound allowed
  have ends : ∀ raw ∈ page.lines.toList.map Line.body, ∀ x ∈ raw, endsLine x = false := by
    rw [lines]
    refine List.forall_mem_map.2 fun line mem => ?_
    obtain ⟨s, member, mem⟩ := List.mem_flatMap.1 mem
    exact (sound s member).endsLine_body (outline_notePlain _ _ _ s member) line mem
  have readable : ∀ l ∈ page.lines.toList, l.Readable := lines ▸ outline_readable sound
  rw [notesOf, Page.toList_text, Text.lines_flatMap_eq_self ends, notes_of_bodies readable, lines,
    filterMap_note?]

/-! ## What notes read as -/

theorem allowed_of_sitesFrom {annotate : Bool} {s : Scope} {commands : List Command}
    (h : ∀ site ∈ sitesFrom annotate s commands, site.Allowed) :
    ∀ c ∈ commands, ∃ t, c.Allowed t := by
  induction commands generalizing s with
  | nil => exact List.forall_mem_nil _
  | cons c commands ih =>
    rw [sitesFrom, List.forall_mem_cons] at h
    exact List.forall_mem_cons.2 ⟨⟨s, h.1⟩, ih h.2⟩

/-- The texts of accepted commands, one a line, read as these commands. -/
theorem readings_intercalate {commands : List Command}
    (allowed : ∀ c ∈ commands, ∃ s, c.Allowed s) :
    readings ("\n".intercalate (commands.map Command.text)) = commands.map .ok := by
  have cut : Text.lines ("\n".intercalate (commands.map Command.text)).toList =
      commands.map fun c => c.text.toList := by
    rw [String.toList_intercalate, List.map_map]
    refine Text.lines_intercalate ?_ ?_
    · exact List.forall_mem_map.2 fun c mem =>
        (allowed c mem).elim fun _ h => Command.endsLine_text h
    · exact List.forall_mem_map.2 fun c mem =>
        (allowed c mem).elim fun _ h => Command.text_ne_nil (Command.worded_of_allowed h)
  -- The lines are numbered, so the induction is for any first number.
  have read (start : Nat) :
      ((((((commands.map fun c => c.text.toList).zipIdx start).map fun p => (p.2, p.1)).map fun l =>
        (l.1, Text.trim (Text.beforeComment l.2))).filterMap fun l =>
          if l.2.isEmpty then none else some (⟨l.1, String.ofList l.2⟩ : SourceLine)).map
            fun line => Command.parse line.text) = commands.map .ok := by
    clear cut
    induction commands generalizing start with
    | nil => rfl
    | cons c commands ih =>
      rw [List.forall_mem_cons] at allowed
      obtain ⟨⟨s, h⟩, others⟩ := allowed
      have rest := ih others (start + 1)
      have worded := Command.worded_of_allowed h
      simpa [Text.beforeComment_eq_self (Command.slash_notMem_text h), Command.trim_text worded,
        Command.text_ne_nil worded, Command.parse_text worded] using rest
  rw [readings, sourceLines, Text.numberedLines, cut]
  exact read 1

/-- With notes, the output of a unit records its source: the notes are a source text with as many
lines of code and the same commands, and it is translated to the same output. -/
theorem notes_record_source {unit source text : String} {config : Config}
    (noting : config.annotate = true)
    (translated : translateSources [(unit, source)] false config = .ok text) :
    (Cursor.ofSource unit (notesOf text)).size = (Cursor.ofSource unit source).size ∧
      commandsOf (sourceLines (notesOf text)) = commandsOf (sourceLines source) ∧
      translateSources [(unit, notesOf text)] false config = .ok text := by
  let commands := commandsOf (sourceLines source)
  have reads : readings source = commands.map .ok :=
    readings_of_translateSources translated (unit, source) List.mem_cons_self
  have sites : outline [(unit, source)] false config =
      sitesFrom true (unitScope unit 0) commands := by
    show unitSites config.annotate 0 [(unit, source)] = _
    rw [unitSites, unitSites, noting, List.append_nil]
  have notes : notesOf text = "\n".intercalate (commands.map Command.text) := by
    rw [notesOf_translated translated, sites, filterMap_note_sitesFrom]
  have allowed : ∀ c ∈ commands, ∃ s, c.Allowed s := by
    obtain ⟨page, done, -⟩ := translateSources_eq_ok translated
    exact allowed_of_sitesFrom (sites ▸ (translate_outline done).2)
  have same : readings source = readings (notesOf text) := by
    rw [notes, readings_intercalate allowed, reads]
  refine ⟨?_, ?_, translateSources_of_readings ?_ translated⟩
  · rw [← length_readings, ← length_readings, same]
  · rw [commandsOf_sourceLines, commandsOf_sourceLines, same]
  · simp only [List.map_cons, List.map_nil, same]

/-- A source whose comments, blanks and numerals are not those of its notes. -/
def untidy : String :=
  "// odd\n\nfunction Main.f 00\r\n\tpush  constant 007 // seven\nlabel L\n neg\nif-goto L\nreturn "

theorem notes_record_source_untidy :
    ∃ text, translateSources [("Main", untidy)] false ⟨.auto, "Sys.init", 256, true⟩ = .ok text ∧
      notesOf text = "function Main.f 0\npush constant 7\nlabel L\nneg\nif-goto L\nreturn" ∧
      (Cursor.ofSource "Main" (notesOf text)).size = 6 ∧
      translateSources [("Main", notesOf text)] false ⟨.auto, "Sys.init", 256, true⟩ =
        .ok text := by
  have accepted : (translateSources [("Main", untidy)] false
      ⟨.auto, "Sys.init", 256, true⟩).toOption.isSome = true := by
    decide +kernel
  obtain ⟨text, translated⟩ := Option.isSome_iff_exists.1 accepted
  have translated := eq_ok_of_toOption translated
  obtain ⟨size, -, again⟩ := notes_record_source rfl translated
  refine ⟨text, translated, ?_, size.trans (by decide +kernel), again⟩
  rw [notesOf_translated translated]
  decide +kernel

end HackPlatform.Vm
