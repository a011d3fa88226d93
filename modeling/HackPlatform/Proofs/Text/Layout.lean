import Mathlib.Data.List.Forall2
import Mathlib.Logic.Relation
import HackPlatform.Proofs.Text.Comments
import HackPlatform.Proofs.Text.Words

/-!
# Layout

A text may be laid out anew: with other gaps between its words, with comments, with lines that hold
no code, with other ends of lines. The lines with code then are the same ones, word by word, and
have other numbers.
-/

namespace HackPlatform.Text

/-- Blank characters within a line. -/
structure Gap (s : List Char) : Prop where
  blank : ∀ x ∈ s, isBlank x = true
  single : '\n' ∉ s

/-- One change to the layout of a line. A comment is appended behind a blank, or left out, from
where it may go to a line of its own; a gap is put before the line, after it or between its code and
its comment; or a gap within it is replaced by another. -/
inductive Retouched : List Char → List Char → Prop
  | comment {line gap note : List Char} (blank : Gap gap)
      (spaced : ∀ x ∈ (line ++ gap).getLast?, isBlank x = true) (single : '\n' ∉ note) :
      Retouched line (line ++ gap ++ '/' :: '/' :: note)
  | uncomment {line code : List Char} (cut : CutAtComment line code) : Retouched line code
  | before {gap line : List Char} (blank : Gap gap) : Retouched line (gap ++ line)
  | after {gap line : List Char} (blank : Gap gap) : Retouched line (line ++ gap)
  | behind {code tail gap : List Char} (cut : CutAtComment (code ++ tail) code) (blank : Gap gap) :
      Retouched (code ++ tail) (code ++ gap ++ tail)
  | between {front back old new : List Char} (blank : Gap old) (some : old ≠ []) (blank' : Gap new)
      (some' : new ≠ []) : Retouched (front ++ old ++ back) (front ++ new ++ back)

/-- Lines that hold no code. -/
inductive Bare : List Char → Prop
  | blank {gap : List Char} (blank : Gap gap) : Bare gap
  | comment {gap note : List Char} (blank : Gap gap) (single : '\n' ∉ note) :
      Bare (gap ++ '/' :: '/' :: note)

/-- What ends a line that is followed by a text. Only the last line may do without. -/
inductive Ended : List Char → List Char → Prop
  | feed (rest : List Char) : Ended ['\n'] rest
  | returnFeed (rest : List Char) : Ended ['\r', '\n'] rest
  | last : Ended [] []

/-- A text is laid out anew, from lines with given numbers on, and the pairs are the old and new
numbers of the lines that it had before. -/
inductive Relaid : Nat → Nat → List Char → List Char → List (Nat × Nat) → Prop
  | done (i j : Nat) : Relaid i j [] [] []
  | inserted {i j : Nat} {line ending s t : List Char} {pairs : List (Nat × Nat)} (bare : Bare line)
      (ended : Ended ending t) (more : Relaid i (j + 1) s t pairs) :
      Relaid i j s (line ++ ending ++ t) pairs
  | kept {i j : Nat} {line line' ending ending' s t : List Char} {pairs : List (Nat × Nat)}
      (single : '\n' ∉ line) (retouched : Relation.ReflTransGen Retouched line line')
      (ended : Ended ending s) (ended' : Ended ending' t) (more : Relaid (i + 1) (j + 1) s t pairs) :
      Relaid i j (line ++ ending ++ s) (line' ++ ending' ++ t) ((i, j) :: pairs)

/-- The words of a line in front of its comment. -/
def codeWords (line : List Char) : List (List Char) :=
  words (beforeComment line)

section

variable {line line' code gap tail : List Char}

theorem Gap.free (blank : Gap gap) : ¬['/', '/'] <:+: gap := fun inside =>
  absurd (blank.blank '/' (inside.subset List.mem_cons_self)) (by decide)

theorem Gap.beforeComment_eq (blank : Gap gap) : beforeComment gap = gap :=
  beforeComment_eq_of_free blank.free

/-- A blank is no slash, so no comment starts across it. -/
theorem last_ne_slash (spaced : ∀ x ∈ line.getLast?, isBlank x = true) :
    line.getLast? ≠ some '/' := fun slash =>
  absurd (spaced '/' slash) (by decide)

theorem Gap.getLast? (blank : Gap gap) : ∀ x ∈ gap.getLast?, isBlank x = true := fun x last =>
  blank.blank x (List.mem_of_getLast? last)

theorem Gap.head? (blank : Gap gap) : gap.head? ≠ some '/' := fun slash =>
  absurd (blank.blank '/' (List.mem_of_mem_head? slash)) (by decide)

theorem Gap.getLast?_append (blank : Gap gap) (some : gap ≠ []) :
    ∀ x ∈ (line ++ gap).getLast?, isBlank x = true := by
  rw [List.getLast?_append, Option.or_of_isSome (List.getLast?_isSome.2 some)]
  exact blank.getLast?

theorem codeWords_gap_append (blank : Gap gap) : codeWords (gap ++ line) = codeWords line := by
  rw [codeWords, beforeComment_append_of_free blank.free (.inl (last_ne_slash blank.getLast?)),
    words_gap_append blank.blank, codeWords]

theorem codeWords_append_gap (blank : Gap gap) : codeWords (line ++ gap) = codeWords line := by
  by_cases noted : ['/', '/'] <:+: line
  · rw [codeWords, beforeComment_append_of_infix noted, codeWords]
  · rw [codeWords, beforeComment_append_of_free noted (.inr blank.head?), blank.beforeComment_eq,
      words_append_gap blank.blank, codeWords, beforeComment_eq_of_free noted]

/-- A comment behind a blank, or at the start of a line, makes no difference. -/
theorem codeWords_append_comment (spaced : ∀ x ∈ line.getLast?, isBlank x = true)
    (note : List Char) : codeWords (line ++ '/' :: '/' :: note) = codeWords line := by
  by_cases noted : ['/', '/'] <:+: line
  · rw [codeWords, beforeComment_append_of_infix noted, codeWords]
  · rw [codeWords, beforeComment_append_of_free noted (.inl (last_ne_slash spaced)),
      beforeComment_comment, List.append_nil, codeWords, beforeComment_eq_of_free noted]

/-- In code, a gap ends the words before it. -/
theorem codeWords_append_gap_append {front : List Char} (free : ¬['/', '/'] <:+: front)
    (blank : Gap gap) (filled : gap ≠ []) (back : List Char) :
    codeWords (front ++ gap ++ back) = words front ++ codeWords back := by
  have seam : (gap ++ back).head? ≠ some '/' := by
    rw [List.head?_append, Option.or_of_isSome (List.isSome_head?.2 filled)]
    exact blank.head?
  rw [codeWords, List.append_assoc, beforeComment_append_of_free free (.inr seam),
    beforeComment_append_of_free blank.free (.inl (last_ne_slash blank.getLast?)),
    ← List.append_assoc, words_append_gap_append blank.blank filled, codeWords]

/-- A gap may be replaced by another one, in code and in a comment. -/
theorem codeWords_between {old new : List Char} (blank : Gap old) (some : old ≠ [])
    (blank' : Gap new) (some' : new ≠ []) (front back : List Char) :
    codeWords (front ++ new ++ back) = codeWords (front ++ old ++ back) := by
  by_cases noted : ['/', '/'] <:+: front
  · rw [List.append_assoc, List.append_assoc, codeWords, codeWords,
      beforeComment_append_of_infix noted, beforeComment_append_of_infix noted]
  · rw [codeWords_append_gap_append noted blank some, codeWords_append_gap_append noted blank' some']

/-- The part in front of the comment has the words of the line. -/
theorem CutAtComment.codeWords_eq (cut : CutAtComment line code) :
    codeWords code = codeWords line := by
  have free : ¬['/', '/'] <:+: code := by
    cases cut with
    | whole free => exact free
    | cut first => exact fun inside => first (inside.trans (List.prefix_append _ _).isInfix)
  rw [codeWords, codeWords, beforeComment_eq_of_free free, beforeComment_eq_iff.2 cut]

theorem codeWords_behind (cut : CutAtComment (code ++ tail) code) (blank : Gap gap) :
    codeWords (code ++ gap ++ tail) = codeWords (code ++ tail) := by
  by_cases none : gap = []
  · rw [none, List.append_nil]
  · rw [← cut.codeWords_eq]
    generalize whole : code ++ tail = line at cut
    cases cut with
    | whole free =>
      rw [List.append_right_eq_self.1 whole, List.append_nil, codeWords_append_gap blank]
    | cut first =>
      rw [List.append_cancel_left whole, codeWords_append_comment (blank.getLast?_append none),
        codeWords_append_gap blank]

/-- A retouched line has the same words. -/
theorem Retouched.codeWords_eq (h : Retouched line line') : codeWords line' = codeWords line := by
  cases h with
  | comment blank spaced single =>
    rw [codeWords_append_comment spaced, codeWords_append_gap blank]
  | uncomment cut => exact cut.codeWords_eq
  | before blank => exact codeWords_gap_append blank
  | after blank => exact codeWords_append_gap blank
  | behind cut blank => exact codeWords_behind cut blank
  | between blank some blank' some' => exact codeWords_between blank some blank' some' _ _

/-- A retouched line is still one line. -/
theorem Retouched.single (h : Retouched line line') (single : '\n' ∉ line) : '\n' ∉ line' := by
  cases h with
  | comment blank _ note => simp [single, blank.single, note]
  | uncomment cut =>
    cases cut with
    | whole => exact single
    | cut => exact fun feed => single (List.mem_append_left _ feed)
  | before blank => simp [single, blank.single]
  | after blank => simp [single, blank.single]
  | behind _ blank =>
    rw [List.mem_append, not_or] at single
    simp [single, blank.single]
  | between _ _ blank' =>
    simp only [List.mem_append, not_or] at single
    simp [single, blank'.single]

theorem retouched_codeWords (h : Relation.ReflTransGen Retouched line line') :
    codeWords line' = codeWords line := by
  induction h with
  | refl => rfl
  | tail _ last ih => rw [last.codeWords_eq, ih]

theorem retouched_single (h : Relation.ReflTransGen Retouched line line') (single : '\n' ∉ line) :
    '\n' ∉ line' := by
  induction h with
  | refl => exact single
  | tail _ last ih => exact last.single ih

theorem Bare.codeWords_eq (bare : Bare line) : codeWords line = [] := by
  cases bare with
  | blank blank =>
    rw [codeWords, blank.beforeComment_eq]
    exact words_eq_nil_iff.2 blank.blank
  | comment blank single =>
    rw [codeWords_append_comment blank.getLast?, codeWords, blank.beforeComment_eq]
    exact words_eq_nil_iff.2 blank.blank

theorem Bare.single (bare : Bare line) : '\n' ∉ line := by
  cases bare with
  | blank blank => exact blank.single
  | comment blank single => simp [blank.single, single]

end

/-! ## Texts -/

/-- The lines with code of a text, from a line with a given number on: their numbers and words. -/
def coded (i : Nat) (s : List Char) : List (Nat × List (List Char)) :=
  ((lines s).zipIdx i).filterMap fun p =>
    if codeWords p.1 = [] then none else some (p.2, codeWords p.1)

/-- One line on its own. -/
def codedLine (i : Nat) (line : List Char) : List (Nat × List (List Char)) :=
  if codeWords line = [] then [] else [(i, codeWords line)]

section

variable {line ending rest : List Char} {i : Nat}

theorem gap_return : Gap ['\r'] :=
  ⟨List.forall_mem_singleton.2 rfl, by decide⟩

theorem codeWords_dropReturn (line : List Char) : codeWords (dropReturn line) = codeWords line := by
  rw [dropReturn]
  split
  · next last =>
    have cut : line = line.dropLast ++ ['\r'] := by
      obtain ⟨front, rfl⟩ := List.getLast?_eq_some_iff.1 last
      rw [List.dropLast_concat]
    conv => rhs; rw [cut, codeWords_append_gap gap_return]
  · rfl

theorem coded_append_feed (single : '\n' ∉ line) (i : Nat) (rest : List Char) :
    coded i (line ++ '\n' :: rest) = codedLine i line ++ coded (i + 1) rest := by
  rw [coded, lines_append_feed single, List.zipIdx_cons, List.filterMap_cons, codedLine, coded,
    codeWords_dropReturn]
  split <;> simp_all

/-- The first line of a text, however it ends. -/
theorem coded_append (single : '\n' ∉ line) (ended : Ended ending rest) :
    coded i (line ++ ending ++ rest) = codedLine i line ++ coded (i + 1) rest := by
  cases ended with
  | feed =>
    rw [List.append_assoc]
    exact coded_append_feed single i rest
  | returnFeed =>
    -- For the cutting of lines, the carriage return is the last character of the line.
    have whole : '\n' ∉ line ++ ['\r'] := by simp [single]
    have cut : line ++ ['\r', '\n'] ++ rest = (line ++ ['\r']) ++ '\n' :: rest := by simp
    rw [cut, coded_append_feed whole, codedLine, codeWords_append_gap gap_return, codedLine]
  | last =>
    -- An empty text has no line, and an empty line has no code.
    have none : coded (i + 1) [] = [] := rfl
    rw [List.append_nil, List.append_nil, none, List.append_nil]
    by_cases filled : line = []
    · subst filled
      rfl
    · rw [coded, lines_single single filled, List.zipIdx_cons, List.filterMap_cons, codedLine]
      split <;> simp_all

end

/-- Two lines have the same words, and their numbers are a pair. -/
def Renumbered (pairs : List (Nat × Nat)) (x y : Nat × List (List Char)) : Prop :=
  (x.1, y.1) ∈ pairs ∧ x.2 = y.2

/-- A text that is laid out anew has the same lines with code. -/
theorem Relaid.renumbered {i j : Nat} {s t : List Char} {pairs : List (Nat × Nat)}
    (h : Relaid i j s t pairs) : List.Forall₂ (Renumbered pairs) (coded i s) (coded j t) := by
  induction h with
  | done => exact .nil
  | inserted bare ended _ ih =>
    rw [coded_append bare.single ended, codedLine, if_pos bare.codeWords_eq]
    exact ih
  | @kept i j line line' _ _ _ _ pairs single retouched ended ended' _ ih =>
    have more := ih.imp fun x y alike =>
      (⟨List.mem_cons_of_mem (i, j) alike.1, alike.2⟩ : Renumbered ((i, j) :: pairs) x y)
    rw [coded_append single ended, coded_append (retouched_single retouched single) ended',
      codedLine, codedLine, retouched_codeWords retouched]
    split
    · exact more
    · exact .cons ⟨List.mem_cons_self, rfl⟩ more

/-- Every text may stay as it is. -/
theorem exists_relaid_self (i : Nat) (s : List Char) : ∃ pairs, Relaid i i s s pairs := by
  by_cases fed : '\n' ∈ s
  · obtain ⟨line, rest, rfl, single⟩ := List.eq_append_cons_of_mem fed
    obtain ⟨pairs, more⟩ := exists_relaid_self (i + 1) rest
    have all := Relaid.kept single .refl (.feed rest) (.feed rest) more
    rw [List.append_assoc] at all
    exact ⟨_, all⟩
  · have all := Relaid.kept fed .refl .last .last (.done (i + 1) (i + 1))
    rw [List.append_nil, List.append_nil] at all
    exact ⟨_, all⟩
termination_by s.length

end HackPlatform.Text
