import HackPlatform.Text.Line

/-!
# Cutting written text

Text that was written line by line is cut into the same lines again, and a line that was written
word by word into the same words. Cleaning does nothing to a line without blanks and comments.
-/

namespace HackPlatform.Text

variable {p : Char → Bool} {c : Char} {s rest : List Char}

/-- A separator cuts a text in two that are cut on their own. -/
theorem splitAt_append_sep (hc : p c = true) (s rest : List Char) :
    splitAt p (s ++ c :: rest) = splitAt p s ++ splitAt p rest := by
  induction s with
  | nil => simp [splitAt_cons, hc]
  | cons x s ih =>
    rw [List.cons_append, splitAt_cons, splitAt_cons, ih]
    obtain ⟨piece, pieces, cut⟩ := List.exists_cons_of_ne_nil (splitAt_ne_nil p s)
    rw [cut]
    split <;> rfl

/-- A text without separators is one piece. -/
theorem splitAt_eq_singleton (h : ∀ x ∈ s, p x = false) : splitAt p s = [s] := by
  induction s with
  | nil => rfl
  | cons x s ih =>
    rw [List.forall_mem_cons] at h
    simp [splitAt_cons, h.1, ih h.2]

/-- No piece has a separator. -/
theorem splitAt_pieces (p : Char → Bool) (s : List Char) :
    ∀ piece ∈ splitAt p s, ∀ x ∈ piece, p x = false := by
  induction s with
  | nil => simp
  | cons x s ih =>
    obtain ⟨piece, pieces, cut⟩ := List.exists_cons_of_ne_nil (splitAt_ne_nil p s)
    rw [cut, List.forall_mem_cons] at ih
    rw [splitAt_cons, cut]
    split
    · exact List.forall_mem_cons.2 ⟨List.forall_mem_nil _, List.forall_mem_cons.2 ih⟩
    · next other =>
      have first : ∀ y ∈ x :: piece, p y = false :=
        List.forall_mem_cons.2 ⟨Bool.eq_false_iff.2 other, ih.1⟩
      exact List.forall_mem_cons.2 ⟨first, ih.2⟩

/-- The first separator ends the first piece. -/
theorem splitAt_append_cons (h : ∀ x ∈ s, p x = false) (hc : p c = true) :
    splitAt p (s ++ c :: rest) = s :: splitAt p rest := by
  rw [splitAt_append_sep hc, splitAt_eq_singleton h, List.singleton_append]

theorem splitOnce?_append_cons (h : c ∉ s) : splitOnce? c (s ++ c :: rest) = some (s, rest) := by
  have other : ∀ x ∈ s, (x != c) = true := fun x hx => bne_iff_ne.2 fun e => h (e ▸ hx)
  rw [splitOnce?, List.dropWhile_append_of_pos other, List.takeWhile_append_of_pos other]
  simp

theorem splitOnce?_eq_none (h : c ∉ s) : splitOnce? c s = none := by
  have other : ∀ x ∈ s, (x != c) = true := fun x hx => bne_iff_ne.2 fun e => h (e ▸ hx)
  rw [splitOnce?, ← List.append_nil s, List.dropWhile_append_of_pos other]
  rfl

/-- A text that was cut is put together again. -/
theorem eq_append_of_splitOnce? {front back : List Char}
    (h : splitOnce? c s = some (front, back)) : s = front ++ c :: back := by
  unfold splitOnce? at h
  split at h
  · cases h
  · next x rest cut =>
    cases h
    have stop : (x != c) = false := by
      have head := List.head?_dropWhile_not (fun x => x != c) s
      rw [cut] at head
      simpa using head
    obtain rfl := bne_eq_false_iff_eq.1 stop
    rw [← cut, List.takeWhile_append_dropWhile]

/-- Within a line there is no place to cut. -/
theorem no_feed (single : '\n' ∉ s) : ∀ x ∈ s, (x == '\n') = false := by
  intro x mem
  rw [beq_eq_false_iff_ne]
  rintro rfl
  exact single mem

/-- Cutting at line feeds leaves an empty piece behind the last line. -/
theorem splitAt_flatMap {ls : List (List Char)} (h : ∀ l ∈ ls, '\n' ∉ l) :
    splitAt (· == '\n') (ls.flatMap (· ++ ['\n'])) = ls ++ [[]] := by
  induction ls with
  | nil => rfl
  | cons l ls ih =>
    rw [List.forall_mem_cons] at h
    rw [List.flatMap_cons, List.append_assoc, List.singleton_append,
      splitAt_append_cons (no_feed h.1) (beq_self_eq_true _), ih h.2]
    rfl

/-- Joining the pieces of a text whose last line is ended. -/
theorem intercalate_concat_nil (ls : List (List Char)) :
    ['\n'].intercalate (ls ++ [[]]) = ls.flatMap (· ++ ['\n']) := by
  induction ls with
  | nil => rfl
  | cons l ls ih =>
    have filled : ls ++ [[]] ≠ [] := List.append_ne_nil_of_right_ne_nil ls (List.cons_ne_nil [] [])
    obtain ⟨piece, pieces, cut⟩ := List.exists_cons_of_ne_nil filled
    rw [List.cons_append, cut, List.intercalate_cons_cons, ← cut, ih, List.flatMap_cons]

/-- Lines that are each ended by a line feed are found again. -/
theorem lines_flatMap {ls : List (List Char)} (h : ∀ l ∈ ls, '\n' ∉ l) :
    lines (ls.flatMap (· ++ ['\n'])) = ls.map dropReturn := by
  simp [lines, splitAt_flatMap h]

/-- A line has no line feed. -/
theorem feed_notMem_of_mem_lines {l : List Char} (h : l ∈ lines s) : '\n' ∉ l := by
  have pieces : ∀ piece ∈ splitAt (· == '\n') s, '\n' ∉ piece := fun piece mem feed =>
    absurd (splitAt_pieces _ s piece mem _ feed) (by decide)
  rw [lines, List.mem_append, List.mem_map] at h
  obtain ⟨piece, mem, rfl⟩ | last := h
  · have inside : dropReturn piece ⊆ piece := by
      unfold dropReturn
      split
      · exact List.dropLast_subset piece
      · exact List.Subset.refl piece
    exact fun feed => pieces piece (List.dropLast_subset _ mem) (inside feed)
  · split at last
    · cases last
    · obtain rfl := List.mem_singleton.1 last
      rw [List.getLastD_eq_getLast?, List.getLast?_eq_some_getLast (splitAt_ne_nil _ s)]
      exact pieces _ (List.getLast_mem _)

theorem dropReturn_of_notMem (h : '\r' ∉ s) : dropReturn s = s :=
  if_neg fun last => h (List.mem_of_getLast? last)

/-- Characters that end a line, alone or together. -/
def endsLine (c : Char) : Bool :=
  c == '\n' || c == '\r'

/-- Lines that are each ended by a line feed, and have no other end, are found again. -/
theorem lines_flatMap_eq_self {ls : List (List Char)} (h : ∀ l ∈ ls, ∀ x ∈ l, endsLine x = false) :
    lines (ls.flatMap (· ++ ['\n'])) = ls := by
  rw [lines_flatMap fun l mem feed => absurd (h l mem _ feed) (by decide)]
  refine (List.map_congr_left fun l mem => ?_).trans (List.map_id ls)
  exact dropReturn_of_notMem fun feed => absurd (h l mem _ feed) (by decide)

/-- Texts that are appended one by one. -/
theorem toList_foldl_append {α : Type} (f : α → String) (start : String) (items : List α) :
    (items.foldl (fun text item => text ++ f item) start).toList =
      start.toList ++ items.flatMap fun item => (f item).toList := by
  induction items generalizing start with
  | nil => simp
  | cons item items ih =>
    rw [List.foldl_cons, ih, String.toList_append, List.flatMap_cons, List.append_assoc]

/-- Pieces that were joined by separators are found again. -/
theorem splitAt_intercalate {ls : List (List Char)} (h : ∀ l ∈ ls, ∀ x ∈ l, p x = false)
    (hc : p c = true) (filled : ls ≠ []) : splitAt p ([c].intercalate ls) = ls := by
  induction ls with
  | nil => exact absurd rfl filled
  | cons l ls ih =>
    rw [List.forall_mem_cons] at h
    cases ls with
    | nil => rw [List.intercalate_singleton, splitAt_eq_singleton h.1]
    | cons m ls =>
      rw [List.intercalate_cons_cons, List.append_assoc, List.singleton_append,
        splitAt_append_cons h.1 hc, ih h.2 (List.cons_ne_nil m ls)]

theorem beforeComment_comment (s : List Char) : beforeComment ('/' :: '/' :: s) = [] := by
  simp [beforeComment, beforeComment.go]

theorem beforeComment_eq_self (h : '/' ∉ s) : beforeComment s = s := by
  have go (kept : List Char) : beforeComment.go kept s = kept.reverse ++ s := by
    induction s generalizing kept with
    | nil => simp [beforeComment.go]
    | cons x s ih =>
      rw [List.mem_cons, not_or] at h
      rw [beforeComment.go, ih h.2]
      · simp
      · rintro _ rfl
        exact absurd rfl h.1
  simpa [beforeComment] using go []

theorem squeeze_eq_self (h : ∀ x ∈ s, isBlank x = false) : squeeze s = s := by
  rw [squeeze, List.filter_eq_self]
  intro x hx
  rw [h x hx]
  rfl

/-- A line without blanks does not end in a carriage return. -/
theorem dropReturn_eq_self (h : ∀ x ∈ s, isBlank x = false) : dropReturn s = s :=
  dropReturn_of_notMem fun mem => absurd (h _ mem) (by decide)

/-- Lines that are not empty and have no end inside are found again when line feeds join them. -/
theorem lines_intercalate {ls : List (List Char)} (h : ∀ l ∈ ls, ∀ x ∈ l, endsLine x = false)
    (filled : ∀ l ∈ ls, l ≠ []) : lines (['\n'].intercalate ls) = ls := by
  obtain rfl | ⟨front, last, cut⟩ := List.eq_nil_or_concat ls
  · rfl
  · rw [List.concat_eq_append] at cut
    subst cut
    have breaks : ∀ l ∈ front ++ [last], ∀ x ∈ l, (x == '\n') = false := by
      intro l mem x hx
      rw [beq_eq_false_iff_ne]
      rintro rfl
      exact absurd (h l mem _ hx) (by decide)
    have pieces := splitAt_intercalate breaks (beq_self_eq_true '\n') (by simp)
    have whole : front.map dropReturn = front.map id := by
      refine List.map_congr_left fun l mem => dropReturn_of_notMem fun feed => ?_
      exact absurd (h l (List.mem_append_left _ mem) _ feed) (by decide)
    have some : last ≠ [] := filled last (List.mem_append_right _ List.mem_cons_self)
    simp [lines, pieces, whole, some]

/-- A text without a line feed is one line. -/
theorem lines_single (single : '\n' ∉ s) (filled : s ≠ []) : lines s = [s] := by
  simp [lines, splitAt_eq_singleton (no_feed single), filled]

theorem numberedLines_single (single : '\n' ∉ s) (filled : s ≠ []) : numberedLines s = [(1, s)] := by
  rw [numberedLines, lines_single single filled]
  rfl

/-- A line feed ends the first line. -/
theorem lines_append_feed (single : '\n' ∉ s) (rest : List Char) :
    lines (s ++ '\n' :: rest) = dropReturn s :: lines rest := by
  obtain ⟨piece, pieces, cut⟩ := List.exists_cons_of_ne_nil (splitAt_ne_nil (· == '\n') rest)
  rw [lines, splitAt_append_cons (no_feed single) (beq_self_eq_true _), lines, cut]
  rfl

/-- Lines with one number are one line. -/
theorem numberedLines_unique {n : Nat} {line other : List Char} (h : (n, line) ∈ numberedLines s)
    (h' : (n, other) ∈ numberedLines s) : line = other := by
  have there (x : List Char) (mem : (n, x) ∈ numberedLines s) : (lines s)[n - 1]? = some x := by
    rw [numberedLines, List.mem_map] at mem
    obtain ⟨⟨x, n⟩, mem, same⟩ := mem
    cases same
    exact (List.mk_mem_zipIdx_iff_le_and_getElem?_sub.1 mem).2
  exact Option.some.inj ((there line h).symm.trans (there other h'))

/-! ## Words -/

theorem mem_intercalate {sep : List Char} {ws : List (List Char)} {x : Char}
    (h : x ∈ sep.intercalate ws) : x ∈ sep ∨ ∃ w ∈ ws, x ∈ w := by
  induction ws with
  | nil => cases h
  | cons w ws ih =>
    cases ws with
    | nil => exact .inr ⟨w, List.mem_cons_self, by simpa using h⟩
    | cons v ws =>
      rw [List.intercalate_cons_cons, List.mem_append, List.mem_append] at h
      obtain (mem | mem) | mem := h
      · exact .inr ⟨w, List.mem_cons_self, mem⟩
      · exact .inl mem
      · exact (ih mem).imp id fun ⟨u, there, mem⟩ => ⟨u, List.mem_cons_of_mem w there, mem⟩

/-- Nothing is cut off a text that neither starts nor ends with a blank. -/
theorem trim_eq_self (first : ∀ x ∈ s.head?, isBlank x = false)
    (last : ∀ x ∈ s.getLast?, isBlank x = false) : trim s = s := by
  have stays (t : List Char) (h : ∀ x ∈ t.head?, isBlank x = false) : t.dropWhile isBlank = t := by
    cases t with
    | nil => rfl
    | cons x t => rw [List.dropWhile_cons, h x rfl, if_neg Bool.false_ne_true]
  rw [trim, stays s first, stays s.reverse (by simpa using last), List.reverse_reverse]

section Joined

variable {ws : List (List Char)} (plain : ∀ w ∈ ws, ∀ x ∈ w, isBlank x = false)
  (filled : ∀ w ∈ ws, w ≠ [])

include plain filled

/-- Words that single blanks separate are found again. -/
theorem words_intercalate (some : ws ≠ []) : words ([' '].intercalate ws) = ws := by
  rw [words, splitAt_intercalate plain (by decide) some, List.filter_eq_self]
  intro w mem
  simp [filled w mem]

omit plain in
theorem intercalate_ne_nil (some : ws ≠ []) : [' '].intercalate ws ≠ [] := by
  obtain ⟨w, ws, rfl⟩ := List.exists_cons_of_ne_nil some
  have first := filled w List.mem_cons_self
  cases ws with
  | nil => simpa using first
  | cons v ws => simp [List.intercalate_cons_cons, first]

/-- Words that blanks separate have none around them. -/
theorem trim_intercalate : trim ([' '].intercalate ws) = [' '].intercalate ws := by
  refine trim_eq_self ?_ ?_
  · cases ws with
    | nil => simp
    | cons w ws =>
      obtain ⟨x, w, rfl⟩ := List.exists_cons_of_ne_nil (filled w List.mem_cons_self)
      have first : ([' '].intercalate ((x :: w) :: ws)).head? = some x := by
        cases ws with
        | nil => simp
        | cons v ws => simp [List.intercalate_cons_cons]
      rw [first]
      rintro _ ⟨rfl⟩
      exact plain _ List.mem_cons_self x List.mem_cons_self
  · induction ws with
    | nil => simp
    | cons w ws ih =>
      rw [List.forall_mem_cons] at plain filled
      cases ws with
      | nil =>
        rw [List.intercalate_singleton]
        exact fun x last => plain.1 x (List.mem_of_getLast? last)
      | cons v ws =>
        have rest := intercalate_ne_nil filled.2 (List.cons_ne_nil v ws)
        rw [List.intercalate_cons_cons, List.getLast?_append,
          Option.or_of_isSome (List.getLast?_isSome.2 rest)]
        exact ih plain.2 filled.2

end Joined

end HackPlatform.Text
