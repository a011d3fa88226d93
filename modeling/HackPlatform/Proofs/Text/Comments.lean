import HackPlatform.Proofs.Text.Lines

/-!
# Where a comment starts

`CutAtComment` says what stands before the first `//` of a line without saying how it is found, and
`beforeComment_eq_iff` that the search finds it.
-/

namespace HackPlatform.Text

variable {c : Char} {s line front rest : List Char}

/-- The part of a line before its first `//`, which is all of a line that has none. A slash in front
of the two would make an earlier pair with the first of them. -/
inductive CutAtComment : List Char → List Char → Prop
  | whole {line : List Char} (free : ¬['/', '/'] <:+: line) : CutAtComment line line
  | cut {front rest : List Char} (first : ¬['/', '/'] <:+: front ++ ['/']) :
    CutAtComment (front ++ '/' :: '/' :: rest) front

/-- Whether a comment starts at a character that is followed by a text. -/
def StartsComment (c : Char) (s : List Char) : Prop :=
  c = '/' ∧ s.head? = some '/'

theorem infix_slashes_cons_iff :
    ['/', '/'] <:+: c :: s ↔ StartsComment c s ∨ ['/', '/'] <:+: s := by
  have next : ['/'] <+: s ↔ s.head? = some '/' := by
    rw [List.head?_eq_some_iff]
    exact exists_congr fun rest => eq_comm
  rw [List.infix_cons_iff, List.cons_prefix_cons, next, StartsComment, eq_comm (a := c)]

theorem beforeComment_go_cons (goes : ¬StartsComment c s) (kept : List Char) :
    beforeComment.go kept (c :: s) = beforeComment.go (c :: kept) s := by
  rw [beforeComment.go]
  rintro rest rfl rfl
  exact goes ⟨rfl, rfl⟩

theorem beforeComment_go (kept s : List Char) :
    beforeComment.go kept s = kept.reverse ++ beforeComment s := by
  induction s generalizing kept with
  | nil => simp [beforeComment, beforeComment.go]
  | cons c s ih =>
    by_cases starts : StartsComment c s
    · obtain ⟨rfl, head⟩ := starts
      obtain ⟨rest, rfl⟩ := List.head?_eq_some_iff.1 head
      simp [beforeComment, beforeComment.go]
    · rw [beforeComment, beforeComment_go_cons starts, beforeComment_go_cons starts, ih, ih [c]]
      simp

theorem beforeComment_cons (goes : ¬StartsComment c s) :
    beforeComment (c :: s) = c :: beforeComment s := by
  rw [beforeComment, beforeComment_go_cons goes, beforeComment_go]
  rfl

/-! ## The whole search -/

theorem cutAtComment_beforeComment (line : List Char) : CutAtComment line (beforeComment line) := by
  induction line with
  | nil => exact .whole (by simp)
  | cons c s ih =>
    by_cases starts : StartsComment c s
    · obtain ⟨rfl, head⟩ := starts
      obtain ⟨rest, rfl⟩ := List.head?_eq_some_iff.1 head
      rw [beforeComment_comment]
      exact @CutAtComment.cut [] rest (by decide)
    · rw [beforeComment_cons starts]
      generalize beforeComment s = front at ih
      cases ih with
      | whole free =>
        apply CutAtComment.whole
        rw [infix_slashes_cons_iff]
        exact not_or.2 ⟨starts, free⟩
      | @cut front rest first =>
        have same : (front ++ ['/']).head? = (front ++ '/' :: '/' :: rest).head? := by
          simp
        refine @CutAtComment.cut (c :: front) rest ?_
        rw [List.cons_append, infix_slashes_cons_iff, StartsComment, same]
        exact not_or.2 ⟨starts, first⟩

theorem beforeComment_eq_of_free (free : ¬['/', '/'] <:+: line) : beforeComment line = line := by
  induction line with
  | nil => rfl
  | cons c s ih =>
    rw [infix_slashes_cons_iff, not_or] at free
    rw [beforeComment_cons free.1, ih free.2]

theorem beforeComment_append (first : ¬['/', '/'] <:+: front ++ ['/']) :
    beforeComment (front ++ '/' :: '/' :: rest) = front := by
  induction front with
  | nil => exact beforeComment_comment rest
  | cons c front ih =>
    rw [List.cons_append, infix_slashes_cons_iff, not_or] at first
    have goes : ¬StartsComment c (front ++ '/' :: '/' :: rest) := by
      intro starts
      apply first.1
      simpa [StartsComment] using starts
    rw [List.cons_append, beforeComment_cons goes, ih first.2]

/-- Behind a comment nothing is looked at. -/
theorem beforeComment_append_of_infix (noted : ['/', '/'] <:+: front) (back : List Char) :
    beforeComment (front ++ back) = beforeComment front := by
  induction front with
  | nil => simp at noted
  | cons c front ih =>
    by_cases starts : StartsComment c front
    · obtain ⟨rfl, head⟩ := starts
      obtain ⟨rest, rfl⟩ := List.head?_eq_some_iff.1 head
      rw [List.cons_append, List.cons_append, beforeComment_comment, beforeComment_comment]
    · rw [infix_slashes_cons_iff] at noted
      have inside := noted.resolve_left starts
      have filled : front ≠ [] := by
        rintro rfl
        simp at inside
      have goes : ¬StartsComment c (front ++ back) := by
        obtain ⟨x, rest, cut⟩ := List.exists_cons_of_ne_nil filled
        rw [cut] at starts ⊢
        exact starts
      rw [List.cons_append, beforeComment_cons goes, beforeComment_cons starts, ih inside]

/-- Where no comment starts before or across it, the search goes on behind a seam. -/
theorem beforeComment_append_of_free (free : ¬['/', '/'] <:+: front) {back : List Char}
    (seam : front.getLast? ≠ some '/' ∨ back.head? ≠ some '/') :
    beforeComment (front ++ back) = front ++ beforeComment back := by
  induction front with
  | nil => rfl
  | cons c front ih =>
    rw [infix_slashes_cons_iff, not_or] at free
    have goes : ¬StartsComment c (front ++ back) := by
      cases front with
      | nil =>
        rintro ⟨rfl, head⟩
        exact seam.elim (fun last => last rfl) fun first => first head
      | cons x front => exact free.1
    have seam : front.getLast? ≠ some '/' ∨ back.head? ≠ some '/' := by
      refine seam.imp_left fun last => ?_
      cases front with
      | nil => simp
      | cons x front => rwa [List.getLast?_cons_cons] at last
    rw [List.cons_append, beforeComment_cons goes, ih free.2 seam, List.cons_append]

/-- The search finds the first comment. -/
theorem beforeComment_eq_iff : beforeComment line = front ↔ CutAtComment line front := by
  constructor
  · rintro rfl
    exact cutAtComment_beforeComment line
  · intro cut
    cases cut with
    | whole free => exact beforeComment_eq_of_free free
    | cut first => exact beforeComment_append first

end HackPlatform.Text
