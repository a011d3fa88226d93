import HackPlatform.Proofs.Asm.Acceptance
import HackPlatform.Proofs.Asm.Resolution

/-!
# Disassembled words

Instructions that are written one a line read back as these instructions and assemble to their
words. Every word of an assembled program is that of an instruction, so the program survives being
written in this way and assembled again.
-/

namespace HackPlatform.Asm

/-- The instructions among words as source text, one a line. -/
def disassemble (words : List UInt16) : String :=
  "\n".intercalate ((words.filterMap Instr.decode?).map Instr.text)

section Joined

variable {code : List (Statement String)} (proper : ∀ s ∈ code, s.Proper)

include proper

theorem lines_intercalate_text :
    Text.lines ("\n".intercalate (code.map Statement.text)).toList =
      code.map fun s => s.text.toList := by
  rw [String.toList_intercalate, List.map_map]
  refine Text.lines_intercalate ?_ ?_
  · exact List.forall_mem_map.2 fun s mem => (proper s mem).endsLine_text
  · exact List.forall_mem_map.2 fun s mem => s.text_ne_nil (proper s mem)

/-- No line of the written forms changes when it is cleaned, and none is dropped. -/
theorem codeLines_intercalate :
    codeLines ("\n".intercalate (code.map Statement.text)).toList =
      (code.zipIdx 1).map fun p => (p.2, p.1.text.toList) := by
  rw [codeLines, Text.numberedLines, lines_intercalate_text proper, List.zipIdx_map, List.map_map,
    List.map_map]
  have clean : ((code.zipIdx 1).map fun p =>
      (p.2, Text.squeeze (Text.beforeComment p.1.text.toList))) =
        (code.zipIdx 1).map fun p => (p.2, p.1.text.toList) := by
    refine List.map_congr_left fun p mem => ?_
    rw [(proper p.1 (List.fst_mem_of_mem_zipIdx mem)).cleaned]
  refine (congrArg (List.filter _) clean).trans (List.filter_eq_self.2 ?_)
  refine List.forall_mem_map.2 fun p mem => ?_
  have filled := p.1.text_ne_nil (proper p.1 (List.fst_mem_of_mem_zipIdx mem))
  simp [filled]

/-- Statements that line feeds join are read back. -/
theorem readSource_intercalate :
    ∃ located, readSource ("\n".intercalate (code.map Statement.text)) = .ok located ∧
      statementsOf located = code := by
  refine ⟨(code.zipIdx 1).map fun p => ⟨p.2, p.1⟩, ?_, ?_⟩
  · rw [readSource, codeLines_intercalate proper, mapM_eq_ok_iff, List.forall₂_map_left_iff,
      List.forall₂_map_right_iff, List.forall₂_same]
    rintro ⟨s, line⟩ mem
    have read := s.read_text (proper s (List.fst_mem_of_mem_zipIdx mem))
    rw [readLine, read]
  · rw [statementsOf, List.map_map]
    exact List.zipIdx_map_fst ..

end Joined

section Instructions

variable {located : List Located} {instrs : List Instr}

theorem labelsFrom_instrs (pc : Nat) (instrs : List Instr) :
    labelsFrom pc (instrs.map .instr) = [] := by
  induction instrs generalizing pc with
  | nil => rfl
  | cons i instrs ih => exact ih (pc + 1)

theorem definedNames_instrs (instrs : List Instr) :
    definedNames (instrs.map (.instr (ν := String))) = [] := by
  rw [← map_fst_labelsFrom 0, labelsFrom_instrs]
  rfl

theorem variableNames_instrs (instrs : List Instr) : variableNames (instrs.map .instr) = [] := by
  simp [variableNames, newNames, usedNames, Statement.referred?, Function.comp_def]

theorem wordCount_instrs (instrs : List Instr) :
    wordCount (instrs.map (.instr (ν := String))) = instrs.length := by
  simp [wordCount, List.countP_map, Statement.isWord, Function.comp_def]

theorem roomy_instrs (fits : instrs.length ≤ 32768) : Roomy (instrs.map .instr) := by
  refine ⟨?_, ?_, ?_⟩
  · rw [wordCount_instrs]
    exact fits
  · rw [LabelsFit, labelsFrom_instrs]
    exact List.forall_mem_nil _
  · rw [variableNames_instrs]
    exact Nat.zero_le _

/-- A table without rows is empty. -/
theorem eq_empty_of_rows {table : Array (String × UInt16)} (h : rows table = []) : table = #[] :=
  Array.toList_eq_nil_iff.1 (List.map_eq_nil_iff.1 h)

/-- Instructions that are not too many assemble to their words, without labels and variables. -/
theorem assembleStatements_instrs (code : statementsOf located = instrs.map .instr)
    (fits : instrs.length ≤ 32768) :
    ∃ p, assembleStatements located = .ok p ∧ p.words.toList = instrs.map Instr.encode ∧
      p.symbols.labels = #[] ∧ p.symbols.vars = #[] := by
  have cases := assembleStatements_cases (code ▸ roomy_instrs fits)
  rw [code, definedNames_instrs] at cases
  obtain ⟨-, p, accepted⟩ | ⟨clash, -⟩ := cases
  · have resolved := resolved_of_assembleStatements accepted
    have words := (assembled_of_assembleStatements accepted).words
    rw [code] at resolved words
    refine ⟨p, accepted, ?_, eq_empty_of_rows ?_, eq_empty_of_rows ?_⟩
    · rw [words]
      simp [List.filterMap_map, Statement.word?, Function.comp_def]
    · rw [resolved.labels, labelsFrom_instrs]
    · rw [resolved.vars, variableNames_instrs]
      rfl
  · exact absurd (enterable_nil _) clash

end Instructions

/-! ## Words -/

/-- Words that are all instructions are the words of these instructions. -/
theorem encode_filterMap_decode? {words : List UInt16}
    (decodes : ∀ w ∈ words, (Instr.decode? w).isSome = true) :
    (words.filterMap Instr.decode?).map Instr.encode = words := by
  have each : ∀ w ∈ words, (Instr.decode? w).map Instr.encode = some w := by
    intro w mem
    obtain ⟨i, decoded⟩ := Option.isSome_iff_exists.1 (decodes w mem)
    rw [decoded, Option.map_some, (Instr.decode?_eq_some_iff.1 decoded).2]
  rw [List.map_filterMap, List.filterMap_congr each, List.filterMap_some]

/-- Words that are all instructions assemble from the text of these, to the same words. -/
theorem assemble_disassemble {words : List UInt16} (fits : words.length ≤ 32768)
    (decodes : ∀ w ∈ words, (Instr.decode? w).isSome = true) :
    ∃ p, assemble (disassemble words) = .ok p ∧ p.words.toList = words ∧
      p.symbols.labels = #[] ∧ p.symbols.vars = #[] := by
  let instrs := words.filterMap Instr.decode?
  have proper : ∀ s ∈ instrs.map Statement.instr, s.Proper := by
    refine List.forall_mem_map.2 fun i mem => ?_
    obtain ⟨w, -, decoded⟩ := List.mem_filterMap.1 mem
    exact (Instr.decode?_eq_some_iff.1 decoded).1
  obtain ⟨located, read, code⟩ := readSource_intercalate proper
  obtain ⟨p, accepted, emitted, labels, vars⟩ := assembleStatements_instrs code
    (Nat.le_trans (List.length_filterMap_le _ _) fits)
  have text : disassemble words =
      "\n".intercalate ((instrs.map Statement.instr).map Statement.text) := by
    rw [disassemble, List.map_map]
    rfl
  refine ⟨p, ?_, emitted.trans (encode_filterMap_decode? decodes), labels, vars⟩
  rw [assemble, text, read]
  exact accepted

/-- Every word of an assembled program is an instruction. -/
theorem Assembled.decodes {code : List (Statement String)} {p : Program} (h : Assembled code p)
    (proper : ∀ s ∈ code, s.Proper) : ∀ w ∈ p.words.toList, (Instr.decode? w).isSome = true := by
  intro w mem
  rw [h.words, List.mem_filterMap] at mem
  obtain ⟨s, there, word⟩ := mem
  cases s with
  | label name => cases word
  | reference name =>
    cases word
    rw [Instr.decode?_encode_address (h.address_bound there)]
    rfl
  | instr i =>
    cases word
    rw [Instr.decode?_encode (proper _ there)]
    rfl

/-- Disassembling and assembling again keeps words that are all instructions, if they are not too
many; and all words of an assembled program are. -/
theorem words_survive_disassembly :
    (∀ words : List UInt16, words.length ≤ 32768 →
      (∀ w ∈ words, (Instr.decode? w).isSome = true) →
      ∃ p, assemble (disassemble words) = .ok p ∧ p.words.toList = words ∧
        p.symbols.labels = #[] ∧ p.symbols.vars = #[]) ∧
    ∀ source p, assemble source = .ok p →
      (∀ w ∈ p.words.toList, (Instr.decode? w).isSome = true) ∧
      ∃ again, assemble (disassemble p.words.toList) = .ok again ∧ again.words = p.words := by
  refine ⟨fun words fits decodes => assemble_disassemble fits decodes, fun source p accepted => ?_⟩
  obtain ⟨located, read, passes⟩ := assemble_eq_ok accepted
  have assembled := assembled_of_assembleStatements passes
  have decodes := assembled.decodes (proper_of_readSource read)
  have fits : p.words.toList.length ≤ 32768 := by
    rw [Array.length_toList, assembled.size_words]
    exact assembled.fits
  obtain ⟨again, done, words, -, -⟩ := assemble_disassemble fits decodes
  exact ⟨decodes, again, done, Array.toList_inj.1 words⟩

/-- A source with a jump back, a variable and operands in the less usual order. -/
def backward : String :=
  "(LOOP)\n@x\nDM=1+M // count\n @ LOOP\nD;JLE"

theorem words_survive_disassembly_backward :
    ∃ p again, assemble backward = .ok p ∧
      disassemble p.words.toList = "@16\nMD=M+1\n@0\nD;JLE" ∧
      assemble (disassemble p.words.toList) = .ok again ∧ again.words = p.words ∧
      again.symbols.labels = #[] ∧ again.symbols.vars = #[] := by
  have words : (assemble backward).toOption.map (·.words.toList) =
      some [0x0010, 0xFDD8, 0x0000, 0xE306] := by
    decide +kernel
  cases accepted : assemble backward with
  | error e =>
    rw [accepted] at words
    cases words
  | ok p =>
    rw [accepted] at words
    have words : p.words.toList = _ := Option.some.inj words
    obtain ⟨decodes, again, done, same⟩ := words_survive_disassembly.2 backward p accepted
    have fits : p.words.toList.length ≤ 32768 := by
      rw [words]
      decide
    obtain ⟨p', done', -, labels, vars⟩ := words_survive_disassembly.1 _ fits decodes
    cases done.symm.trans done'
    refine ⟨p, again, rfl, ?_, done, same, labels, vars⟩
    rw [words]
    decide +kernel

end HackPlatform.Asm
