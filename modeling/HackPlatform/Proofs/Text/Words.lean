import HackPlatform.Proofs.Text.Lines

/-!
# The words of a text

A text alternates between gaps of blank characters and words that have none. The reader of words
finds the only way to divide a text like that.
-/

namespace HackPlatform.Text

/-- A text is divided into words by its blank characters. There is no word in a gap, and a word goes
as far as it can: behind it comes a blank or the end of the text. -/
inductive Spaced : List Char → List (List Char) → Prop
  | gap {s : List Char} (blank : ∀ x ∈ s, isBlank x = true) : Spaced s []
  | word {gap word rest : List Char} {ws : List (List Char)} (blank : ∀ x ∈ gap, isBlank x = true)
      (filled : word ≠ []) (plain : ∀ x ∈ word, isBlank x = false)
      (ends : ∀ x ∈ rest.head?, isBlank x = true) (more : Spaced rest ws) :
      Spaced (gap ++ word ++ rest) (word :: ws)

variable {c : Char} {s gap word rest : List Char} {ws : List (List Char)}

/-- A blank in front makes no difference. -/
theorem words_cons_blank (h : isBlank c = true) (s : List Char) : words (c :: s) = words s := by
  rw [words, splitAt_cons, if_pos h]
  rfl

theorem words_gap_append (blank : ∀ x ∈ gap, isBlank x = true) (s : List Char) :
    words (gap ++ s) = words s := by
  induction gap with
  | nil => rfl
  | cons x gap ih =>
    rw [List.forall_mem_cons] at blank
    rw [List.cons_append, words_cons_blank blank.1, ih blank.2]

/-- A blank separates the words before it from those behind it. -/
theorem words_append_blank (h : isBlank c = true) (s rest : List Char) :
    words (s ++ c :: rest) = words s ++ words rest := by
  rw [words, splitAt_append_sep h, List.filter_append]
  rfl

/-- So does a gap, however long it is. -/
theorem words_append_gap_append (blank : ∀ x ∈ gap, isBlank x = true) (some : gap ≠ [])
    (s rest : List Char) : words (s ++ gap ++ rest) = words s ++ words rest := by
  obtain ⟨c, gap, rfl⟩ := List.exists_cons_of_ne_nil some
  rw [List.forall_mem_cons] at blank
  rw [List.append_assoc, List.cons_append, words_append_blank blank.1, words_gap_append blank.2]

/-- A gap at the end makes no difference. -/
theorem words_append_gap (blank : ∀ x ∈ gap, isBlank x = true) (s : List Char) :
    words (s ++ gap) = words s := by
  by_cases some : gap = []
  · rw [some, List.append_nil]
  · rw [← List.append_nil (s ++ gap), words_append_gap_append blank some]
    exact List.append_nil _

/-- The first word of a text that starts with one. -/
theorem words_word_append (filled : word ≠ []) (plain : ∀ x ∈ word, isBlank x = false)
    (ends : ∀ x ∈ rest.head?, isBlank x = true) : words (word ++ rest) = word :: words rest := by
  cases rest with
  | nil => simp [words, splitAt_eq_singleton plain, filled]
  | cons x rest =>
    rw [words_cons_blank (ends x rfl), words, splitAt_append_cons plain (ends x rfl)]
    simp [words, filled]

theorem Spaced.words_eq (h : Spaced s ws) : words s = ws := by
  induction h with
  | @gap s blank =>
    rw [← List.append_nil s, words_gap_append blank]
    rfl
  | word blank filled plain ends _ ih =>
    rw [List.append_assoc, words_gap_append blank, words_word_append filled plain ends, ih]

/-- Every text can be divided: its first character joins the first gap or the first word. -/
theorem exists_spaced (s : List Char) : ∃ ws, Spaced s ws := by
  induction s with
  | nil => exact ⟨[], .gap (List.forall_mem_nil _)⟩
  | cons c s ih =>
    obtain ⟨ws, spaced⟩ := ih
    by_cases blank : isBlank c = true
    · cases spaced with
      | gap all => exact ⟨[], .gap (List.forall_mem_cons.2 ⟨blank, all⟩)⟩
      | word all filled plain ends more =>
        exact ⟨_, .word (List.forall_mem_cons.2 ⟨blank, all⟩) filled plain ends more⟩
    · have letter : isBlank c = false := Bool.eq_false_iff.2 blank
      have alone (ends : ∀ x ∈ s.head?, isBlank x = true) : Spaced (c :: s) ([c] :: ws) :=
        .word (List.forall_mem_nil _) (List.cons_ne_nil c []) (List.forall_mem_singleton.2 letter)
          ends spaced
      cases spaced with
      | gap all => exact ⟨_, alone fun x first => all x (List.mem_of_head? first)⟩
      | @word gap word rest ws all filled plain ends more =>
        cases gap with
        | nil =>
          exact ⟨_, .word (List.forall_mem_nil _) (List.cons_ne_nil c word)
            (List.forall_mem_cons.2 ⟨letter, plain⟩) ends more⟩
        | cons x gap =>
          refine ⟨_, alone ?_⟩
          rintro _ ⟨rfl⟩
          exact all x List.mem_cons_self

/-- The words are found, and nothing else is taken for them. -/
theorem words_eq_iff : words s = ws ↔ Spaced s ws := by
  constructor
  · rintro rfl
    obtain ⟨ws, spaced⟩ := exists_spaced s
    rwa [spaced.words_eq]
  · exact Spaced.words_eq

/-- A text without words is a gap. -/
theorem words_eq_nil_iff : words s = [] ↔ ∀ x ∈ s, isBlank x = true := by
  rw [words_eq_iff]
  constructor
  · intro spaced
    cases spaced with
    | gap blank => exact blank
  · exact .gap

/-- A text with its gaps at both ends. -/
theorem exists_gaps_trim (s : List Char) : ∃ before after, (∀ x ∈ before, isBlank x = true) ∧
    (∀ x ∈ after, isBlank x = true) ∧ s = before ++ trim s ++ after := by
  let body := s.dropWhile isBlank
  have cut : s = s.takeWhile isBlank ++ body := List.takeWhile_append_dropWhile.symm
  have back : body = trim s ++ (body.reverse.takeWhile isBlank).reverse := by
    rw [trim, ← List.reverse_append, List.takeWhile_append_dropWhile, List.reverse_reverse]
  refine ⟨s.takeWhile isBlank, (body.reverse.takeWhile isBlank).reverse, fun x mem => ?_,
    fun x mem => ?_, ?_⟩
  · exact (List.all_eq_true.1 List.all_takeWhile) x mem
  · exact (List.all_eq_true.1 List.all_takeWhile) x (List.mem_reverse.1 mem)
  · rw [List.append_assoc, ← back]
    exact cut

/-- Trimming leaves the words. -/
theorem words_trim (s : List Char) : words (trim s) = words s := by
  obtain ⟨before, after, first, last, cut⟩ := exists_gaps_trim s
  conv => rhs; rw [cut, words_append_gap last, words_gap_append first]

/-- Trimming leaves nothing exactly when there are no words. -/
theorem trim_eq_nil_iff : trim s = [] ↔ words s = [] := by
  constructor
  · intro none
    rw [← words_trim, none]
    rfl
  · intro none
    rw [trim, ← List.append_nil s, List.dropWhile_append_of_pos (words_eq_nil_iff.1 none)]
    rfl

/-! ## Trimming -/

/-- A text that neither starts nor ends with a blank, in a line that has only blanks around it. -/
structure Trimmed (line s : List Char) : Prop where
  around : ∃ before after, (∀ x ∈ before, isBlank x = true) ∧ (∀ x ∈ after, isBlank x = true) ∧
    line = before ++ s ++ after
  first : ∀ x ∈ s.head?, isBlank x = false
  last : ∀ x ∈ s.getLast?, isBlank x = false

variable {line : List Char}

theorem trim_gap_append (blank : ∀ x ∈ gap, isBlank x = true) (s : List Char) :
    trim (gap ++ s) = trim s := by
  rw [trim, List.dropWhile_append_of_pos blank, trim]

theorem trim_append_gap (blank : ∀ x ∈ gap, isBlank x = true) (s : List Char) :
    trim (s ++ gap) = trim s := by
  have none : gap.dropWhile isBlank = [] := by
    rw [← List.append_nil gap, List.dropWhile_append_of_pos blank]
    rfl
  have back : ∀ x ∈ gap.reverse, isBlank x = true := fun x mem => blank x (List.mem_reverse.1 mem)
  rw [trim, trim, List.dropWhile_append, none]
  split
  · next empty => rw [List.isEmpty_iff.1 empty]
  · rw [List.reverse_append, List.dropWhile_append_of_pos back]

theorem trim_eq_iff : trim line = s ↔ Trimmed line s := by
  constructor
  · rintro rfl
    have ends (t : List Char) : ∀ x ∈ (t.dropWhile isBlank).head?, isBlank x = false := by
      intro x first
      have stop := List.head?_dropWhile_not isBlank t
      rw [Option.mem_def.1 first] at stop
      simpa using stop
    obtain ⟨before, after, blank, blank', cut⟩ := exists_gaps_trim line
    refine ⟨⟨before, after, blank, blank', cut⟩, fun x first => ?_, ?_⟩
    · have front : trim line <+: line.dropWhile isBlank := by
        rw [trim, ← List.reverse_suffix, List.reverse_reverse]
        exact List.dropWhile_suffix isBlank
      obtain ⟨rest, whole⟩ := front
      refine ends line x ?_
      rw [← whole, List.head?_append, Option.mem_def.1 first]
      rfl
    · rw [trim, List.getLast?_reverse]
      exact ends _
  · rintro ⟨⟨before, after, blank, blank', rfl⟩, first, last⟩
    rw [trim_append_gap blank', trim_gap_append blank, trim_eq_self first last]

end HackPlatform.Text
