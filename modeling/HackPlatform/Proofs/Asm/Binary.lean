import Mathlib.Data.Set.List
import HackPlatform.Asm.Binary
import HackPlatform.Cli.Emulate
import HackPlatform.Proofs.Asm.Failure
import HackPlatform.Proofs.Text.Words

/-!
# Program files

What is written to a program file is read back. What is read from one is written back without the
blank lines and the blanks around the words, and the first line that is neither blank nor a word is
refused. A program thus runs from its file as it does from its source.
-/

namespace HackPlatform.Asm.Binary

variable {text : String} {words : List UInt16} {line : List Char} {l : Nat × List Char} {e : Error}

/-- A line that may stand in a program file: it is blank, or has sixteen digits between blanks. -/
def Fine (line : List Char) : Prop :=
  ∀ s, Text.Trimmed line s → s = [] ∨ Text.WordDigits s

theorem fine_iff : Fine line ↔ Text.trim line = [] ∨ Text.WordDigits (Text.trim line) := by
  constructor
  · exact fun fine => fine _ (Text.trim_eq_iff.1 rfl)
  · rintro fine s trimmed
    rwa [← Text.trim_eq_iff.2 trimmed]

theorem readWord_eq_ok_iff {w : UInt16} : readWord l = .ok w ↔ Text.binaryDigits w = l.2 := by
  rw [← Text.readBinary?_eq_some_iff, readWord]
  cases Text.readBinary? l.2 <;> simp

theorem exists_readWord_iff : (∃ w, readWord l = .ok w) ↔ Text.WordDigits l.2 := by
  simp only [readWord_eq_ok_iff, Text.exists_binaryDigits_eq_iff]

/-- Any other line is refused. -/
theorem readWord_of_not_wordDigits (bad : ¬Text.WordDigits l.2) :
    readWord l = .error (.malformed l.1 (String.ofList l.2) .badWord) := by
  cases read : readWord l with
  | ok w => exact absurd (exists_readWord_iff.1 ⟨w, read⟩) bad
  | error e =>
    unfold readWord at read
    split at read
    · cases read
    · exact read.symm

/-- The lines without the blank ones and without the blanks around the others. -/
def kept (lines : List (List Char)) : List (List Char) :=
  (lines.map Text.trim).filter fun s => !s.isEmpty

theorem map_snd_wordLines (text : List Char) :
    (wordLines text).map Prod.snd = kept (Text.lines text) := by
  have plain : (Text.numberedLines text).map (fun l => Text.trim l.2) =
      (Text.lines text).map Text.trim := by
    conv => rhs; rw [← List.zipIdx_map_fst 1 (Text.lines text), List.map_map]
    rw [Text.numberedLines, List.map_map]
    rfl
  rw [wordLines, kept, ← plain, List.filter_map, List.filter_map, List.map_map]
  rfl

/-- Exactly the words are read whose digits stand on the lines. -/
theorem parse_eq_ok_iff :
    parse text = .ok words ↔ words.map Text.binaryDigits = kept (Text.lines text.toList) := by
  rw [parse, mapM_eq_ok_iff, ← map_snd_wordLines, ← List.forall₂_eq_eq_eq, List.forall₂_map_left_iff,
    List.forall₂_map_right_iff]
  simp only [readWord_eq_ok_iff]
  exact ⟨List.Forall₂.flip, List.Forall₂.flip⟩

theorem mem_kept {s : List Char} {lines : List (List Char)} :
    s ∈ kept lines ↔ ∃ line ∈ lines, Text.trim line = s ∧ s ≠ [] := by
  simp only [kept, List.mem_filter, List.mem_map, Bool.not_eq_true', List.isEmpty_eq_false_iff]
  grind

theorem exists_parse_iff :
    (∃ words, parse text = .ok words) ↔ ∀ line ∈ Text.lines text.toList, Fine line := by
  have range (ls : List (List Char)) :
      (∃ words : List UInt16, words.map Text.binaryDigits = ls) ↔ ∀ s ∈ ls, Text.WordDigits s := by
    have all := congrArg (ls ∈ ·) (Set.range_list_map Text.binaryDigits)
    simpa [Text.exists_binaryDigits_eq_iff] using all
  simp only [parse_eq_ok_iff, range, mem_kept, fine_iff]
  grind

theorem toList_render (words : List UInt16) :
    (render words).toList = (words.map Text.binaryDigits).flatMap (· ++ ['\n']) := by
  rw [render, String.toList_ofList, List.flatMap_map]

theorem plain_binaryDigits (w : UInt16) : ∀ c ∈ Text.binaryDigits w, Text.isBlank c = false := by
  intro c mem
  obtain rfl | rfl := (Text.wordDigits_binaryDigits w).digits c mem <;> decide

/-- What is written is read back. -/
theorem parse_render (words : List UInt16) : parse (render words) = .ok words := by
  have single : ∀ l ∈ words.map Text.binaryDigits, ∀ x ∈ l, Text.endsLine x = false := by
    rw [List.forall_mem_map]
    intro w _ c mem
    obtain rfl | rfl := (Text.wordDigits_binaryDigits w).digits c mem <;> decide
  have trimmed : (words.map Text.binaryDigits).map Text.trim = words.map Text.binaryDigits := by
    rw [List.map_map]
    refine List.map_congr_left fun w _ => Text.trim_eq_self (fun c first => ?_) fun c last => ?_
    · exact plain_binaryDigits w c (List.mem_of_head? first)
    · exact plain_binaryDigits w c (List.mem_of_getLast? last)
  rw [parse_eq_ok_iff, toList_render, Text.lines_flatMap_eq_self single, kept, trimmed, eq_comm,
    List.filter_eq_self, List.forall_mem_map]
  intro w _
  rw [Bool.not_eq_true', List.isEmpty_eq_false_iff]
  exact List.ne_nil_of_length_pos ((Text.wordDigits_binaryDigits w).length ▸ by decide)

/-- What is read is written back as the lines that were kept. -/
theorem toList_render_of_parse (read : parse text = .ok words) :
    (render words).toList = (kept (Text.lines text.toList)).flatMap (· ++ ['\n']) := by
  rw [toList_render, parse_eq_ok_iff.1 read]

/-- A line is refused when those before it are fine. -/
theorem parse_of_bad {before after : List (List Char)}
    (here : Text.lines text.toList = before ++ line :: after) (fine : ∀ l ∈ before, Fine l)
    (bad : ¬Fine line) :
    parse text = .error (.malformed (before.length + 1) (String.ofList (Text.trim line)) .badWord) := by
  rw [fine_iff, not_or] at bad
  have numbered : Text.numberedLines text.toList = ((before.zipIdx 1).map fun p => (p.2, p.1)) ++
      (before.length + 1, line) ::
        ((after.zipIdx (before.length + 2)).map fun p => (p.2, p.1)) := by
    rw [Text.numberedLines, here, List.zipIdx_append, List.zipIdx_cons, List.map_append,
      List.map_cons, Nat.add_comm 1]
  rw [parse, mapM_eq_error_iff, wordLines, numbered, List.map_append, List.map_cons,
    List.filter_append, List.filter_cons_of_pos (by simpa using bad.1)]
  -- The lines before are blank or words, so the walk comes as far as this one.
  refine ⟨_, _, _, rfl, fun l mem => ?_, readWord_of_not_wordDigits bad.2⟩
  simp only [List.mem_filter, List.mem_map, Bool.not_eq_true', List.isEmpty_eq_false_iff] at mem
  obtain ⟨⟨_, ⟨p, there, rfl⟩, rfl⟩, filled⟩ := mem
  have ok := fine_iff.1 (fine p.1 (List.fst_mem_of_mem_zipIdx there))
  exact exists_readWord_iff.2 (ok.resolve_left filled)

/-- There is a first line that is refused. -/
theorem exists_first_bad {lines : List (List Char)} (bad : ¬∀ l ∈ lines, Fine l) :
    ∃ before line after, lines = before ++ line :: after ∧ (∀ l ∈ before, Fine l) ∧ ¬Fine line := by
  obtain ⟨before, line, after, here, fine, fails⟩ :=
    exists_first_failure (P := fun ls => ∀ l ∈ ls, Fine l) (List.forall_mem_nil _) bad
  refine ⟨before, line, after, here, fine, fun last => fails ?_⟩
  rw [List.forall_mem_append, List.forall_mem_singleton]
  exact ⟨fine, last⟩

theorem parse_eq_error_iff :
    parse text = .error e ↔ ∃ before line after, Text.lines text.toList = before ++ line :: after ∧
      (∀ l ∈ before, Fine l) ∧ ¬Fine line ∧
      e = .malformed (before.length + 1) (String.ofList (Text.trim line)) .badWord := by
  constructor
  · intro refused
    have bad : ¬∀ line ∈ Text.lines text.toList, Fine line := by
      rw [← exists_parse_iff]
      rintro ⟨words, read⟩
      cases read.symm.trans refused
    obtain ⟨before, line, after, here, fine, bad⟩ := exists_first_bad bad
    exact ⟨before, line, after, here, fine, bad,
      Except.error.inj (refused.symm.trans (parse_of_bad here fine bad))⟩
  · rintro ⟨before, line, after, here, fine, bad, rfl⟩
    exact parse_of_bad here fine bad

/-! ## Both ways -/

/-- What comes of a text that is read as a program file. It is read when every line may stand in
one, and what is written back are its trimmed lines that are not empty. Otherwise the first line
that may not is reported, trimmed and with its number. -/
structure Reads (text : String) : Prop where
  accepts : (∃ words, parse text = .ok words) ↔ ∀ line ∈ Text.lines text.toList, Fine line
  writes : ∀ words, parse text = .ok words →
    ∃ trimmed, List.Forall₂ Text.Trimmed (Text.lines text.toList) trimmed ∧
      (render words).toList = (trimmed.filter fun s => !s.isEmpty).flatMap (· ++ ['\n'])
  refuses : ∀ e, parse text = .error e ↔
    ∃ before line after s, Text.lines text.toList = before ++ line :: after ∧
      (∀ l ∈ before, Fine l) ∧ ¬Fine line ∧ Text.Trimmed line s ∧
      e = .malformed (before.length + 1) (String.ofList s) .badWord

theorem reads (text : String) : Reads text := by
  refine ⟨exists_parse_iff, fun words read => ?_, fun e => ?_⟩
  · refine ⟨(Text.lines text.toList).map Text.trim, ?_, toList_render_of_parse read⟩
    rw [List.forall₂_map_right_iff, List.forall₂_same]
    exact fun line _ => Text.trim_eq_iff.1 rfl
  · simp only [parse_eq_error_iff, ← Text.trim_eq_iff]
    grind

open Cli.Emulate

/-- A program that is run from its source and from the file that is written for it: both give its
words, and what is asked of the emulator has the same result. -/
structure RunsAlike (source : String) (p : Program) : Prop where
  loads : ∀ input file, Path.extension? input ≠ some "hack" → Path.extension? file = some "hack" →
    loadWords input source = .ok p.words ∧ loadWords file (render p.words.toList) = .ok p.words
  reports : ∀ (r : Request) (file : String), Path.extension? r.input ≠ some "hack" →
    Path.extension? file = some "hack" →
      emulate { r with input := file } (render p.words.toList) = emulate r source

theorem runsAlike {source : String} {p : Program} (ok : assemble source = .ok p) :
    RunsAlike source p := by
  have loads (input file : String) (other : Path.extension? input ≠ some "hack")
      (binary : Path.extension? file = some "hack") :
      loadWords input source = .ok p.words ∧ loadWords file (render p.words.toList) = .ok p.words := by
    constructor
    · rw [loadWords, if_neg (by simpa using other), ok]
    · rw [loadWords, if_pos (by simpa using binary), parse_render]
  refine ⟨loads, fun r file other binary => ?_⟩
  obtain ⟨fromSource, fromFile⟩ := loads r.input file other binary
  rw [emulate, emulate, fromSource, fromFile]

/-- The format of program files goes round both ways, from words to text and from text to words, so
that a program runs from its file as it does from its source. -/
theorem binary_round_trips :
    (∀ words, parse (render words) = .ok words) ∧ (∀ text, Reads text) ∧
      ∀ source p, assemble source = .ok p → RunsAlike source p :=
  ⟨parse_render, reads, fun _ _ => runsAlike⟩

/-- A program file with blank lines and blanks around its words. -/
def untidy : String :=
  "\r\n\t0000000000000011 \r\n\n\u00A01110110000010000"

theorem binary_round_trips_untidy :
    parse untidy = .ok [3, 60432] ∧
      (∃ trimmed, List.Forall₂ Text.Trimmed (Text.lines untidy.toList) trimmed ∧
        (render [3, 60432]).toList = (trimmed.filter fun s => !s.isEmpty).flatMap (· ++ ['\n'])) ∧
      ∃ p, assemble "@3\nD=A\n" = .ok p ∧
        loadWords "three.asm" "@3\nD=A\n" = .ok p.words ∧
        loadWords "three.hack" (render p.words.toList) = .ok p.words := by
  have read : parse untidy = .ok [3, 60432] := by decide +kernel
  obtain ⟨p, ok⟩ : ∃ p, assemble "@3\nD=A\n" = .ok p := exists_eq_ok (by decide +kernel)
  have loads := (binary_round_trips.2.2 _ p ok).loads "three.asm" "three.hack" (by decide +kernel)
    (by decide +kernel)
  exact ⟨read, (binary_round_trips.2.1 untidy).writes _ read, p, ok, loads⟩

end HackPlatform.Asm.Binary
