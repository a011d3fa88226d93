import Mathlib.Logic.Equiv.Basic
import HackPlatform.Proofs.Asm.Judged

/-!
# Renamed programs

A renaming gives every name another one, so that different names stay different, and leaves the
predefined ones alone. The two passes compare names and do not look into them: a source text and the
same text under other names assemble to the same words and to tables that list the same addresses in
the same order, or are refused at the same line for the same reason.
-/

namespace HackPlatform.Asm

/-- Names for names: no two get the same one, and the predefined ones keep theirs. -/
structure Renaming where
  rename : String → String
  named : ∀ {name : String}, NameText name.toList → NameText (rename name).toList
  injective : ∀ {name other : String}, NameText name.toList → NameText other.toList →
    rename name = rename other → name = other
  fixes : ∀ row ∈ predefined, rename row.1 = row.1

namespace Renaming

variable (r : Renaming)

/-- What remains of a line and what remains of it under the new names. Only labels and references
have a name. -/
inductive Rephrased : List Char → List Char → Prop
  | label {name : String} (named : NameText name.toList) :
    Rephrased ('(' :: (name.toList ++ [')'])) ('(' :: ((r.rename name).toList ++ [')']))
  | reference {name : String} (named : NameText name.toList) :
    Rephrased ('@' :: name.toList) ('@' :: (r.rename name).toList)
  | nameless {text : List Char} (nameless : ∀ s : Statement String, Phrase text s → ∃ i, s = .instr i) :
    Rephrased text text

/-- A line and the same under the new names. Blanks and comments may differ. -/
def Rewritten (line other : List Char) : Prop :=
  ∃ text text', Remains line text ∧ Remains other text' ∧ r.Rephrased text text'

/-- A source text and the same under the new names, line by line. -/
def Renames (source other : String) : Prop :=
  List.Forall₂ r.Rewritten (Text.lines source.toList) (Text.lines other.toList)

/-- The error for a text under the new names: of the same kind, at the same line. -/
def error : Error → Error
  | .duplicateLabel line name => .duplicateLabel line (r.rename name)
  | .outOfVariables line name => .outOfVariables line (r.rename name)
  | e => e

/-- A row of a table under the new names. -/
def row (entry : String × UInt16) : String × UInt16 :=
  (r.rename entry.1, entry.2)

/-- A table and the same under the new names: the same addresses, in the same order. -/
structure Tables (t u : SymbolTable) : Prop where
  labels : u.labels = t.labels.map r.row
  vars : u.vars = t.vars.map r.row
  next : u.nextVariable = t.nextVariable
  get : ∀ {name : String}, NameText name.toList → u.get? (r.rename name) = t.get? name

/-- The same words, with tables under the new names. -/
structure Programs (p q : Program) : Prop where
  words : q.words = p.words
  tables : r.Tables p.symbols q.symbols

/-- Both succeed with results that correspond, or both fail with the same error but for the names. -/
inductive Answers {α β : Type} (Same : α → β → Prop) : Except Error α → Except Error β → Prop
  | ok {a : α} {b : β} (same : Same a b) : Answers Same (.ok a) (.ok b)
  | error (e : Error) : Answers Same (.error e) (.error (r.error e))

variable {r}

/-- Computations that go on from results that correspond. -/
theorem Answers.bind {α β γ δ : Type} {Same : α → β → Prop} {Next : γ → δ → Prop}
    {x : Except Error α} {y : Except Error β} {f : α → Except Error γ} {g : β → Except Error δ}
    (h : r.Answers Same x y) (next : ∀ a b, Same a b → r.Answers Next (f a) (g b)) :
    r.Answers Next (x.bind f) (y.bind g) := by
  cases h with
  | ok same => exact next _ _ same
  | error e => exact .error e

variable {t u : SymbolTable} {name other : String}

theorem rename_eq_iff (named : NameText name.toList) (named' : NameText other.toList) :
    r.rename name = r.rename other ↔ name = other :=
  ⟨r.injective named named', congrArg r.rename⟩

/-- A predefined name is a name, so that no other gets it. -/
theorem rename_mem_predefined_iff {v : UInt16} (named : NameText name.toList) :
    (r.rename name, v) ∈ predefined ↔ (name, v) ∈ predefined := by
  constructor
  · intro mem
    have all : ∀ row ∈ predefined, isName row.1.toList = true := by decide
    have same : r.rename (r.rename name) = r.rename name := r.fixes _ mem
    have fixed : r.rename name = name := r.injective (isName_iff_nameText.1 (all _ mem)) named same
    rwa [fixed] at mem
  · intro mem
    have fixed : r.rename name = name := r.fixes _ mem
    rwa [fixed]

variable (r) in
theorem tables_initial : r.Tables .initial .initial := by
  refine ⟨Array.map_empty.symm, Array.map_empty.symm, rfl, fun {name} named => ?_⟩
  ext v
  rw [SymbolTable.get?_initial, SymbolTable.get?_initial, rename_mem_predefined_iff named]

section Tables

variable (h : r.Tables t u) (named : NameText name.toList)

include h named

theorem Tables.contains : u.contains (r.rename name) = t.contains name := by
  rw [SymbolTable.contains_eq_isSome, SymbolTable.contains_eq_isSome, h.get named]

/-- A name is entered in both tables. -/
theorem Tables.get_insert (addr : UInt16) (named' : NameText other.toList) :
    (if r.rename name = r.rename other then some addr else u.get? (r.rename other)) =
      if name = other then some addr else t.get? other := by
  rw [h.get named']
  simp only [rename_eq_iff named named']

theorem Tables.addLabel? (addr : UInt16) :
    Option.Rel r.Tables (t.addLabel? name addr) (u.addLabel? (r.rename name) addr) := by
  rw [SymbolTable.addLabel?, SymbolTable.addLabel?, h.contains named]
  split
  · exact .none
  · refine .some ⟨?_, h.vars, h.next, fun named' => ?_⟩
    · simp only [h.labels, Array.map_push, row]
    · rw [SymbolTable.get?_insert, SymbolTable.get?_insert]
      exact h.get_insert named addr named'

theorem Tables.resolve? :
    Option.Rel (fun a b => b.1 = a.1 ∧ r.Tables a.2 b.2) (t.resolve? name)
      (u.resolve? (r.rename name)) := by
  rw [SymbolTable.resolve?, SymbolTable.resolve?, h.get named]
  cases t.get? name with
  | some addr => exact .some ⟨rfl, h⟩
  | none =>
    rw [h.next]
    by_cases full : screenStart ≤ t.nextVariable
    · simp only [if_pos full]
      exact .none
    · simp only [if_neg full]
      refine .some ⟨rfl, h.labels, ?_, rfl, fun named' => ?_⟩
      · simp only [h.vars, Array.map_push, row]
      · rw [SymbolTable.get?_insert, SymbolTable.get?_insert]
        exact h.get_insert named _ named'

end Tables

variable (r) in
/-- A located statement under the new names. -/
def located (l : Located) : Located :=
  ⟨l.line, l.statement.map r.rename⟩

section Passes

variable {lines : List Located} (proper : ∀ l ∈ lines, l.statement.Proper)

include proper

theorem defineLabels_renamed (h : r.Tables t u) (pc : Nat) :
    r.Answers (fun a b => b.1 = a.1 ∧ r.Tables a.2 b.2) (defineLabels lines pc t)
      (defineLabels (lines.map r.located) pc u) := by
  induction lines generalizing pc t u with
  | nil => exact .ok ⟨rfl, h⟩
  | cons l lines ih =>
    rw [List.forall_mem_cons] at proper
    obtain ⟨line, s⟩ := l
    cases s with
    | reference name => exact ih proper.2 h (pc + 1)
    | instr i => exact ih proper.2 h (pc + 1)
    | label name =>
      rw [List.map_cons, located, Statement.map, defineLabels, defineLabels]
      split
      · exact .error (.romFull line)
      · have added := h.addLabel? (isName_iff_nameText.1 proper.1) pc.toUInt16
        generalize t.addLabel? name pc.toUInt16 = a, u.addLabel? (r.rename name) pc.toUInt16 = b
          at added
        cases added with
        | none => exact .error (.duplicateLabel line name)
        | some entered => exact ih proper.2 entered pc

theorem emitWords_renamed (h : r.Tables t u) (words : Array UInt16) :
    r.Answers r.Programs (emitWords lines words t) (emitWords (lines.map r.located) words u) := by
  induction lines generalizing words t u with
  | nil => exact .ok ⟨rfl, h⟩
  | cons l lines ih =>
    rw [List.forall_mem_cons] at proper
    obtain ⟨line, s⟩ := l
    cases s with
    | label name => exact ih proper.2 h words
    | instr i => exact ih proper.2 h _
    | reference name =>
      rw [List.map_cons, located, Statement.map, emitWords, emitWords]
      have resolved := h.resolve? (isName_iff_nameText.1 proper.1)
      generalize t.resolve? name = a, u.resolve? (r.rename name) = b at resolved
      cases resolved with
      | none => exact .error (.outOfVariables line name)
      | @some a b same =>
        obtain ⟨addr, next⟩ := a
        obtain ⟨_, next'⟩ := b
        obtain ⟨rfl, tables⟩ := same
        exact ih proper.2 tables _

theorem assembleStatements_renamed :
    r.Answers r.Programs (assembleStatements lines) (assembleStatements (lines.map r.located)) := by
  have last : (lines.map r.located).getLast?.map Located.line = lines.getLast?.map Located.line := by
    rw [List.getLast?_map, Option.map_map]
    rfl
  rw [assembleStatements, assembleStatements, last]
  have defined := defineLabels_renamed proper r.tables_initial 0
  generalize defineLabels lines 0 .initial = a, defineLabels (lines.map r.located) 0 .initial = b
    at defined
  cases defined with
  | error e => exact .error e
  | @ok a b same =>
    obtain ⟨count, next⟩ := a
    obtain ⟨_, next'⟩ := b
    obtain ⟨rfl, tables⟩ := same
    dsimp only
    split
    · exact .error (.romFull _)
    · exact emitWords_renamed proper tables #[]

end Passes

/-! ## Reading -/

theorem Rephrased.eq_nil_iff {text text' : List Char} (h : r.Rephrased text text') :
    text = [] ↔ text' = [] := by
  cases h with
  | label => simp
  | reference => simp
  | nameless => rfl

theorem proper_map {s : Statement String} (proper : s.Proper) : (s.map r.rename).Proper := by
  cases s with
  | label name => exact isName_iff_nameText.2 (r.named (isName_iff_nameText.1 proper))
  | reference name => exact isName_iff_nameText.2 (r.named (isName_iff_nameText.1 proper))
  | instr i => exact proper

theorem readLine_text {s : Statement String} (proper : s.Proper) (n : Nat) :
    readLine (n, s.text.toList) = .ok ⟨n, s⟩ := by
  rw [readLine, Statement.read_text proper]

/-- What is read under the new names: the same statement, under them. -/
theorem readLine_rephrased {text text' : List Char} (h : r.Rephrased text text') (n : Nat) :
    r.Answers (fun a b => a.statement.Proper ∧ r.located a = b) (readLine (n, text))
      (readLine (n, text')) := by
  have written {s : Statement String} (proper : s.Proper) :
      r.Answers (fun a b => a.statement.Proper ∧ r.located a = b) (readLine (n, s.text.toList))
        (readLine (n, (s.map r.rename).text.toList)) := by
    rw [readLine_text proper, readLine_text (proper_map proper)]
    exact .ok ⟨proper, rfl⟩
  cases h with
  | @label name named =>
    have both := @written (.label name) (isName_iff_nameText.2 named)
    simpa [Statement.map, Statement.text] using both
  | @reference name named =>
    have both := @written (.reference name) (isName_iff_nameText.2 named)
    simpa [Statement.map, Statement.text] using both
  | nameless nameless =>
    cases read : readLine (n, text) with
    | ok l =>
      have denotes := (readLine_eq_ok_iff.1 read).statement
      obtain ⟨line, s⟩ := l
      obtain ⟨i, rfl⟩ := nameless s (phrase_iff_denotes.2 denotes)
      exact .ok ⟨denotes.proper, rfl⟩
    | error e =>
      cases readLine_eq_error_iff.1 read with
      | range => exact .error (.range _ _)
      | malformed => exact .error (.malformed _ _ _)

/-- Elements of which nothing remains are left out. -/
theorem cleaned_cons_of_nil {n : Nat} {line : List Char} (remains : Remains line [])
    (after : List (Nat × List Char)) : cleaned ((n, line) :: after) = cleaned after := by
  rw [cleaned, List.map_cons, ← remains_iff.1 remains]
  rfl

theorem codeLines_renamed {source other : String} (h : r.Renames source other) :
    List.Forall₂ (fun a b => a.1 = b.1 ∧ r.Rephrased a.2 b.2) (codeLines source.toList)
      (codeLines other.toList) := by
  have numbered {lines lines' : List (List Char)} (h : List.Forall₂ r.Rewritten lines lines') (n : Nat) :
      List.Forall₂ (fun a b => a.1 = b.1 ∧ r.Rephrased a.2 b.2)
        (cleaned ((lines.zipIdx n).map fun p => (p.2, p.1)))
        (cleaned ((lines'.zipIdx n).map fun p => (p.2, p.1))) := by
    induction h generalizing n with
    | nil => exact .nil
    | cons first _ ih =>
      obtain ⟨text, text', remains, remains', rephrased⟩ := first
      rw [List.zipIdx_cons, List.zipIdx_cons, List.map_cons, List.map_cons]
      by_cases none : text = []
      · have none' := rephrased.eq_nil_iff.1 none
        subst none none'
        rw [cleaned_cons_of_nil remains, cleaned_cons_of_nil remains']
        exact ih (n + 1)
      · have some : text' ≠ [] := fun none' => none (rephrased.eq_nil_iff.2 none')
        rw [cleaned_cons remains none, cleaned_cons remains' some]
        exact .cons ⟨rfl, rephrased⟩ (ih (n + 1))
  exact numbered h 1

/-- Walks that answer element by element. -/
theorem Answers.mapM {α β γ δ : Type} {Same : γ → δ → Prop} {f : α → Except Error γ}
    {g : β → Except Error δ} {l : List α} {m : List β}
    (h : List.Forall₂ (fun a b => r.Answers Same (f a) (g b)) l m) :
    r.Answers (List.Forall₂ Same) (l.mapM f) (m.mapM g) := by
  induction h with
  | nil => exact .ok .nil
  | cons first _ ih =>
    rw [List.mapM_cons, List.mapM_cons]
    exact first.bind fun _ _ same => ih.bind fun _ _ rest => .ok (.cons same rest)

theorem readSource_renamed {source other : String} (h : r.Renames source other) :
    r.Answers (fun a b => (∀ l ∈ a, l.statement.Proper) ∧ b = a.map r.located) (readSource source)
      (readSource other) := by
  have each : List.Forall₂ (fun a b => r.Answers (fun x y => x.statement.Proper ∧ r.located x = y)
      (readLine a) (readLine b)) (codeLines source.toList) (codeLines other.toList) := by
    refine (codeLines_renamed h).imp ?_
    rintro ⟨n, text⟩ ⟨_, text'⟩ ⟨rfl, rephrased⟩
    exact readLine_rephrased rephrased n
  have read := Answers.mapM each
  rw [readSource, readSource]
  generalize (codeLines source.toList).mapM readLine = a,
    (codeLines other.toList).mapM readLine = b at read
  cases read with
  | error e => exact .error e
  | ok same =>
    rw [List.forall₂_and_left, ← List.forall₂_map_left_iff, List.forall₂_eq_eq_eq] at same
    exact .ok ⟨same.1, same.2.symm⟩

section Source

variable (r)

/-- A line with its name replaced. Such a line loses its blanks and its comment. -/
def line (line : List Char) : List Char :=
  match Statement.read (Text.squeeze (Text.beforeComment line)) with
  | .ok (.instr _) | .error _ => line
  | .ok s => (s.map r.rename).text.toList

/-- A source text with all names replaced. -/
def source (source : String) : String :=
  String.ofList (((Text.lines source.toList).map r.line).flatMap (· ++ ['\n']))

end Source

/-- A carriage return at the end of a line is blank or within the comment. -/
theorem remains_dropReturn {line text : List Char} (h : Remains line text) :
    Remains (Text.dropReturn line) text := by
  rw [Text.dropReturn]
  split
  · next last =>
    obtain ⟨front, rfl⟩ := List.getLast?_eq_some_iff.1 last
    obtain rfl := remains_iff.1 h
    rw [List.dropLast_concat, remains_iff]
    by_cases noted : ['/', '/'] <:+: front
    · rw [Text.beforeComment_append_of_infix noted]
    · rw [Text.beforeComment_append_of_free noted (.inr (by decide)),
        Text.beforeComment_eq_of_free noted, Text.squeeze, List.filter_append]
      exact List.append_nil _
  · exact h

/-- A name is written without blanks, comments and ends of lines. -/
theorem rewritten_of_proper {line text : List Char} {s : Statement String} (remains : Remains line text)
    (proper : s.Proper) (rephrased : r.Rephrased text s.text.toList) :
    r.Rewritten line (Text.dropReturn s.text.toList) :=
  ⟨text, _, remains, remains_dropReturn (remains_iff.2 proper.cleaned.symm), rephrased⟩

theorem rewritten_line (line : List Char) : r.Rewritten line (Text.dropReturn (r.line line)) := by
  have remains : Remains line _ := remains_iff.2 rfl
  rw [Renaming.line]
  generalize Text.squeeze (Text.beforeComment line) = text at remains
  have kept (nameless : ∀ s, Phrase text s → ∃ i, s = .instr i) :
      r.Rewritten line (Text.dropReturn line) :=
    ⟨text, text, remains, remains_dropReturn remains, .nameless nameless⟩
  cases read : Statement.read text with
  | error e =>
    refine kept fun s phrase => ?_
    cases read.symm.trans (Statement.read_of_denotes (phrase_iff_denotes.1 phrase))
  | ok s =>
    have denotes := Statement.denotes_of_read read
    have proper : (s.map r.rename).Proper := proper_map denotes.proper
    cases phrase_iff_denotes.2 denotes with
    | @label name named =>
      refine rewritten_of_proper remains proper ?_
      have rephrased := @Rephrased.label r (String.ofList name)
      simpa [Statement.map, Statement.text, named] using rephrased
    | @reference name named =>
      refine rewritten_of_proper remains proper ?_
      have rephrased := @Rephrased.reference r (String.ofList name)
      simpa [Statement.map, Statement.text, named] using rephrased
    | load | compute =>
      refine kept fun s phrase => ?_
      rw [Statement.read_of_denotes (phrase_iff_denotes.1 phrase)] at read
      exact ⟨_, Except.ok.inj read⟩

theorem feed_notMem_line {line : List Char} (single : '\n' ∉ line) : '\n' ∉ r.line line := by
  rw [Renaming.line]
  split
  · exact single
  · exact single
  · next s _ read =>
    have proper : (s.map r.rename).Proper := proper_map (Statement.denotes_of_read read).proper
    exact fun feed => absurd (proper.endsLine_text _ feed) (by decide)

theorem renames_source (source : String) : r.Renames source (r.source source) := by
  rw [Renames, Renaming.source, String.toList_ofList, Text.lines_flatMap, List.map_map,
    List.forall₂_map_right_iff, List.forall₂_same]
  · exact fun line _ => rewritten_line line
  · refine List.forall_mem_map.2 fun line mem => ?_
    exact feed_notMem_line (Text.feed_notMem_of_mem_lines mem)

end Renaming

/-- Two names in each other's place. -/
def Renaming.exchange (a b : String) (named : NameText a.toList) (named' : NameText b.toList)
    (free : a ∉ predefined.map Prod.fst) (free' : b ∉ predefined.map Prod.fst) : Renaming where
  rename := Equiv.swap a b
  named {name} named'' := by
    rw [Equiv.swap_apply_def]
    split
    · exact named'
    · split
      · exact named
      · exact named''
  injective _ _ same := (Equiv.swap a b).injective same
  fixes row mem := by
    have name : row.1 ∈ predefined.map Prod.fst := List.mem_map_of_mem mem
    exact Equiv.swap_apply_of_ne_of_ne (fun same => free (same ▸ name)) fun same => free' (same ▸ name)

/-- A label that is also used, and a variable. -/
def counting : String :=
  "(LOOP)\n@ i // count\nMD=M+1\n@LOOP\nD;JLT\n"

end HackPlatform.Asm
