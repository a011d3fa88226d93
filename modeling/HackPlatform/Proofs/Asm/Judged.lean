import HackPlatform.Proofs.Asm.Phrase

/-!
# The judgement on a line

A line of a source text whose earlier lines read is refused exactly when what remains of it is no
phrase: for its number when that is too large, and as malformed in all other cases. A line that is
accepted as an instruction gives that instruction's word, behind the words of the lines before it.
-/

namespace HackPlatform.Asm

variable {source : String} {lines before after : List (Nat × List Char)} {n : Nat}
  {line r : List Char}

/-- What remains of a line: its part before the first comment, without blanks. -/
def Remains (line r : List Char) : Prop :=
  ∃ front, Text.CutAtComment line front ∧ r = Text.squeeze front

theorem remains_iff : Remains line r ↔ r = Text.squeeze (Text.beforeComment line) := by
  constructor
  · rintro ⟨front, cut, rfl⟩
    rw [Text.beforeComment_eq_iff.2 cut]
  · intro same
    exact ⟨_, Text.cutAtComment_beforeComment line, same⟩

/-- The lines of which something remains, and this. -/
def cleaned (lines : List (Nat × List Char)) : List (Nat × List Char) :=
  (lines.map fun l => (l.1, Text.squeeze (Text.beforeComment l.2))).filter fun l => !l.2.isEmpty

theorem mem_cleaned {l : Nat × List Char} :
    l ∈ cleaned lines ↔ ∃ line, (l.1, line) ∈ lines ∧ Remains line l.2 ∧ l.2 ≠ [] := by
  simp only [cleaned, List.mem_filter, List.mem_map, remains_iff, Bool.not_eq_true',
    List.isEmpty_eq_false_iff]
  constructor
  · rintro ⟨⟨⟨number, line⟩, mem, rfl⟩, filled⟩
    exact ⟨line, mem, rfl, filled⟩
  · rintro ⟨line, mem, same, filled⟩
    exact ⟨⟨_, mem, Prod.ext rfl same.symm⟩, filled⟩

theorem cleaned_append (before after : List (Nat × List Char)) :
    cleaned (before ++ after) = cleaned before ++ cleaned after := by
  rw [cleaned, List.map_append, List.filter_append]
  rfl

theorem cleaned_cons (remains : Remains line r) (filled : r ≠ []) :
    cleaned ((n, line) :: after) = (n, r) :: cleaned after := by
  obtain rfl := remains_iff.1 remains
  rw [cleaned, List.map_cons, List.filter_cons_of_pos]
  · rfl
  · simpa using filled

/-- How many words lines give: one for each of which something other than a label remains. -/
def wordsGiven (lines : List (Nat × List Char)) : Nat :=
  lines.countP fun l => (Text.squeeze (Text.beforeComment l.2)).head?.any (· != '(')

theorem wordsGiven_eq_countP (lines : List (Nat × List Char)) :
    wordsGiven lines = (cleaned lines).countP fun l => l.2.head?.any (· != '(') := by
  rw [cleaned, List.countP_filter, List.countP_map]
  refine List.countP_congr fun l _ => ?_
  rw [Function.comp_apply]
  cases Text.squeeze (Text.beforeComment l.2) <;> simp

/-- The statements without a word are the labels, and these start with a parenthesis. -/
theorem Denotes.isWord {s : Statement String} (h : Denotes r s) :
    s.isWord = r.head?.any (· != '(') := by
  have read := Statement.read_of_denotes h
  by_cases label : r.head? = some '('
  · obtain ⟨inner, rfl⟩ := List.head?_eq_some_iff.1 label
    obtain ⟨name, rfl⟩ : ∃ name, s = .label name := by
      simp only [Statement.read, Statement.readLabel] at read
      split at read
      · split at read
        · cases read
          exact ⟨_, rfl⟩
        · cases read
      · cases read
    rfl
  · have word : s.isWord = true := by
      cases h with
      | label named => exact absurd rfl label
      | reference named => rfl
      | load filled digit number low => rfl
      | compute front spelled behind => rfl
    cases r with
    | nil => cases read
    | cons c rest => simpa [word] using label

theorem wordCount_of_denotesAt {located : List Located} (h : List.Forall₂ DenotesAt lines located) :
    wordCount (statementsOf located) = lines.countP fun l => l.2.head?.any (· != '(') := by
  induction h with
  | nil => rfl
  | @cons l x lines located first _ ih =>
    have head := first.statement.isWord
    rw [statementsOf, List.map_cons, wordCount, List.countP_cons, List.countP_cons, head, ← ih]
    rfl

/-- Words that stand behind others in the code stand there among the words. -/
theorem Assembled.word_at {front rest : List (Statement String)} {i : Instr} {p : Program}
    (h : Assembled (front ++ .instr i :: rest) p) : p.words[wordCount front]? = some i.encode := by
  rw [← Array.getElem?_toList, h.words, List.filterMap_append,
    ← length_filterMap_word? p.symbols.address, List.getElem?_append_right (Nat.le_refl _),
    Nat.sub_self]
  rfl

/-! ## Judgements -/

/-- What the assembler answers about line `n`, which stands behind `k` words and of which `r`
remains. A phrase is accepted. A number that fits 32 bits but no instruction is refused as one,
anything else as malformed, and shown as it was read. The word of an instruction is the next one,
and is decoded as what the line stands for. -/
structure Judged (source : String) (n k : Nat) (r : List Char) : Prop where
  accepted : (∃ s, Phrase r s) ↔
    (∀ value, assemble source ≠ .error (.range n value)) ∧
      ∀ text fault, assemble source ≠ .error (.malformed n text fault)
  range : ∀ value, assemble source = .error (.range n value) ↔
    ∃ digits, TooLarge digits ∧ r = '@' :: digits ∧ value = String.ofList digits
  malformed : ∀ text, (∃ fault, assemble source = .error (.malformed n text fault)) ↔
    (∀ s, ¬Phrase r s) ∧ (∀ digits, TooLarge digits → r ≠ '@' :: digits) ∧ text = String.ofList r
  word : ∀ i, Phrase r (.instr i) → ∀ p, assemble source = .ok p →
    ∃ w, p.words[k]? = some w ∧ Instr.decode? w = some i

theorem exists_phrase_iff (n : Nat) : (∃ s, Phrase r s) ↔ ∀ e, ¬LineFails (n, r) e := by
  simp only [← readLine_eq_error_iff, phrase_iff_denotes]
  constructor
  · rintro ⟨s, denotes⟩ e failed
    have read : readLine (n, r) = .ok ⟨n, s⟩ := readLine_eq_ok_iff.2 ⟨rfl, denotes⟩
    cases read.symm.trans failed
  · intro none
    cases read : readLine (n, r) with
    | ok x => exact ⟨x.statement, (readLine_eq_ok_iff.1 read).statement⟩
    | error e => exact absurd read (none e)

theorem lineFails_range_iff {value : String} :
    LineFails (n, r) (.range n value) ↔
      ∃ digits, TooLarge digits ∧ r = '@' :: digits ∧ value = String.ofList digits := by
  constructor
  · intro h
    cases h with
    | range large load => exact ⟨_, large, load, rfl⟩
  · rintro ⟨digits, large, load, rfl⟩
    exact .range large load

theorem lineFails_malformed_iff {text : String} :
    (∃ fault, LineFails (n, r) (.malformed n text fault)) ↔
      (∀ s, ¬Phrase r s) ∧ (∀ digits, TooLarge digits → r ≠ '@' :: digits) ∧
        text = String.ofList r := by
  constructor
  · rintro ⟨fault, h⟩
    cases h with
    | malformed other small found =>
      exact ⟨fun s phrase => other s (phrase_iff_denotes.1 phrase), small, rfl⟩
  · rintro ⟨other, small, rfl⟩
    have denotes (s : Statement String) : ¬Denotes r s := fun h => other s (phrase_iff_denotes.2 h)
    cases found : Statement.read r with
    | ok s => exact absurd (Statement.denotes_of_read found) (denotes s)
    | error e =>
      cases e with
      | malformed fault => exact ⟨fault, .malformed denotes small found⟩
      | range value =>
        obtain ⟨digits, large, load, -⟩ := Statement.read_eq_range_iff.1 found
        exact absurd load (small digits large)

section Line

variable (here : Text.numberedLines source.toList = before ++ (n, line) :: after)
  (fine : ∀ l ∈ before, ∀ r, Remains l.2 r → r ≠ [] → ∃ s, Phrase r s)
  (remains : Remains line r) (filled : r ≠ [])

include here remains filled

theorem codeLines_here :
    codeLines source.toList = cleaned before ++ (n, r) :: cleaned after := by
  rw [← cleaned_cons remains filled, ← cleaned_append, ← here]
  rfl

include fine

/-- An error that names the line is reported exactly when the line has it. -/
theorem assemble_eq_error_iff_lineFails {e : Error} (ofLine : e.OfLine)
    (names : ∀ l, LineFails l e → l.1 = n) :
    assemble source = .error e ↔ LineFails (n, r) e := by
  rw [assemble_eq_error_iff]
  constructor
  · intro h
    cases h with
    | @line front rest l _ there _ fails =>
      have mem : l ∈ cleaned (Text.numberedLines source.toList) := by
        rw [show cleaned _ = front ++ l :: rest from there]
        exact List.mem_append_right _ List.mem_cons_self
      obtain ⟨other, numbered, said, -⟩ := mem_cleaned.1 mem
      obtain ⟨number, text⟩ := l
      obtain rfl : number = n := names _ fails
      have mine : (number, line) ∈ Text.numberedLines source.toList := by
        rw [here]
        exact List.mem_append_right _ List.mem_cons_self
      obtain rfl := Text.numberedLines_unique mine numbered
      obtain rfl : text = r := (remains_iff.1 said).trans (remains_iff.1 remains).symm
      exact fails
    | pass denoted fails =>
      exact absurd ofLine (assembleStatements_error fails.assembleStatements_eq)
  · intro fails
    refine .line (codeLines_here here remains filled) (fun l mem => ?_) fails
    obtain ⟨line, there, said, some⟩ := mem_cleaned.1 mem
    obtain ⟨s, phrase⟩ := fine _ there l.2 said some
    exact ⟨s, phrase_iff_denotes.1 phrase⟩

omit fine in
theorem word_of_phrase {i : Instr} {p : Program} (phrase : Phrase r (.instr i))
    (ok : assemble source = .ok p) :
    ∃ w, p.words[wordsGiven before]? = some w ∧ Instr.decode? w = some i := by
  obtain ⟨located, read, passed⟩ := assemble_eq_ok ok
  have denoted := readSource_eq_ok_iff.1 read
  have assembled := assembled_of_assembleStatements passed
  rw [codeLines_here here remains filled] at denoted
  -- The statements are cut where the lines are.
  have front := List.forall₂_take_append _ _ _ denoted.flip
  have back := List.forall₂_drop_append _ _ _ denoted.flip
  rw [← List.take_append_drop (cleaned before).length located] at assembled
  generalize located.take (cleaned before).length = first at front assembled
  generalize located.drop (cleaned before).length = last at back assembled
  obtain ⟨x, last, there, -, rfl⟩ := List.forall₂_cons_right_iff.1 back
  have same : x.statement = .instr i := by
    have read := Statement.read_of_denotes there.statement
    rw [Statement.read_of_denotes (phrase_iff_denotes.1 phrase)] at read
    exact (Except.ok.inj read).symm
  rw [statementsOf, List.map_append, List.map_cons, same] at assembled
  refine ⟨i.encode, ?_, Instr.decode?_encode (phrase_iff_denotes.1 phrase).proper⟩
  rw [wordsGiven_eq_countP, ← wordCount_of_denotesAt front.flip]
  exact assembled.word_at

/-- A line is judged by what remains of it, when the lines before it read. -/
theorem assemble_judges_line : Judged source n (wordsGiven before) r := by
  have malformed (text : String) (fault : Fault) :=
    assemble_eq_error_iff_lineFails here fine remains filled (e := .malformed n text fault) trivial
      fun l fails => by cases fails; rfl
  have range (value : String) :=
    assemble_eq_error_iff_lineFails here fine remains filled (e := .range n value) trivial
      fun l fails => by cases fails; rfl
  refine ⟨?_, ?_, ?_, ?_⟩
  · constructor
    · intro phrase
      have none := (exists_phrase_iff n).1 phrase
      exact ⟨fun value refused => none _ ((range value).1 refused),
        fun text fault refused => none _ ((malformed text fault).1 refused)⟩
    · rintro ⟨noRange, noFault⟩
      refine (exists_phrase_iff n).2 fun e fails => ?_
      cases fails with
      | range large load => exact noRange _ ((range _).2 (.range large load))
      | malformed other small found =>
        exact noFault _ _ ((malformed _ _).2 (.malformed other small found))
  · intro value
    rw [range, lineFails_range_iff]
  · intro text
    simp only [malformed, lineFails_malformed_iff]
  · exact fun i phrase p ok => word_of_phrase here remains filled phrase ok

end Line

/-- A label, an empty line, a name, and an instruction with blanks in it. -/
def spaced : String :=
  "( L 1 )// here\n\n\t@ L1\n D M = 1 +\tM ; J L T//x\n"

theorem assemble_judges_line_spaced :
    Judged spaced 4 1 "DM=1+M;JLT".toList ∧
      ∃ p w, assemble spaced = .ok p ∧ p.words[1]? = some w ∧
        Instr.decode? w = some (.compute ⟨false, true, true⟩ .mPlusOne .lt) := by
  let before : List (Nat × List Char) :=
    [(1, "( L 1 )// here".toList), (2, []), (3, "\t@ L1".toList)]
  have here : Text.numberedLines spaced.toList =
      before ++ [(4, " D M = 1 +\tM ; J L T//x".toList)] := by
    decide +kernel
  have read : ∀ l ∈ before, Text.squeeze (Text.beforeComment l.2) = [] ∨
      (Statement.read (Text.squeeze (Text.beforeComment l.2))).toOption.isSome = true := by
    decide +kernel
  have judged : Judged spaced 4 (wordsGiven before) "DM=1+M;JLT".toList := by
    apply assemble_judges_line here
    · intro l mem r remains filled
      obtain rfl := remains_iff.1 remains
      obtain empty | some := read l mem
      · exact absurd empty filled
      · obtain ⟨s, found⟩ := exists_eq_ok some
        exact ⟨s, phrase_iff_denotes.2 (Statement.denotes_of_read found)⟩
    · rw [remains_iff]
      decide +kernel
    · decide +kernel
  have phrase : Phrase "DM=1+M;JLT".toList (.instr (.compute ⟨false, true, true⟩ .mPlusOne .lt)) := by
    rw [phrase_iff_denotes, ← Statement.read_eq_ok_iff]
    decide +kernel
  refine ⟨judged, ?_⟩
  obtain ⟨p, ok⟩ : ∃ p, assemble spaced = .ok p := exists_eq_ok (by decide +kernel)
  obtain ⟨w, there, decoded⟩ := judged.word _ phrase p ok
  exact ⟨p, w, ok, there, decoded⟩

end HackPlatform.Asm
