import HackPlatform.Proofs.Asm.Listing

/-!
# The rows of a listing

A listing has one row for each word, with the rows of labels between them. As long as there are no
more words than addresses, a row shows the index of its word, that word, and directly before it the
label of that address. Behind them the index is cut to sixteen bits: a row then shows its own word
decoded, but the bits, the next instruction and the label of the word at the address that is left.
-/

namespace HackPlatform.Asm.Listing

/-- The rows of a text are what its line feeds end. -/
def rowsOf (listing : String) : List (List Char) :=
  (Text.splitAt (· == '\n') listing.toList).dropLast

/-- The row of a label. -/
def labelRow (name : String) : List Char :=
  '(' :: (name.toList ++ [')'])

/-- Only the rows of labels start with a parenthesis. -/
def showsWord (row : List Char) : Bool :=
  row.head? != some '('

/-- The rows of words. -/
def wordRows (rows : List (List Char)) : List (List Char) :=
  rows.filter showsWord

/-- What is shown for a word: its instruction, with the word behind the given address as the next;
or the number found at that address, when the word does not decode. -/
def shownWord (words : Array UInt16) (labels : LabelMap) (addr : Nat) (word : UInt16) : List Char :=
  match Instr.decode? word with
  | some i => (labelledText labels i (words[addr + 1]?.bind Instr.decode?)).toList
  | none => ".word 0x".toList ++ Text.hexDigits (words.getD addr 0)

/-- The row of a word that is shown at the given address, which stands in front of it. The bits are
those found there. -/
def wordRow (words : Array UInt16) (labels : LabelMap) (bits : Bool) (addr : Nat) (word : UInt16) :
    List Char :=
  List.replicate (5 - addr.repr.length) ' ' ++ addr.repr.toList ++ [':', ' '] ++
    (if bits then Text.binaryDigits (words.getD addr 0) ++ [' ', ' '] else []) ++
    shownWord words labels addr word

/-- A listing shows every word at the address that its index is given. Its rows are ended; those of
words are as many as the words and in their order, and the row of a label stands directly before
that of a word at its address. -/
structure Shows (place : Nat → Nat) (words : Array UInt16) (labels : LabelMap) (bits : Bool) :
    Prop where
  ended : (Text.splitAt (· == '\n') (render words labels bits).toList).getLast? = some []
  count : (wordRows (rowsOf (render words labels bits))).length = words.size
  row : ∀ front row back, rowsOf (render words labels bits) = front ++ row :: back →
    showsWord row = true → ∃ word, words[(wordRows front).length]? = some word ∧
      row = wordRow words labels bits (place (wordRows front).length) word
  label : ∀ front row back, rowsOf (render words labels bits) = front ++ row :: back →
    showsWord row = true → ∀ name, front.getLast? = some (labelRow name) ↔
      ∃ addr : UInt16, addr.toNat = place (wordRows front).length ∧ labels[addr]? = some name

theorem labelRow_injective {name other : String} (h : labelRow name = labelRow other) :
    name = other :=
  String.toList_inj.1 (List.append_cancel_right (List.cons.inj h).2)

section Laid

/-- Rows of words with the labels that stand before some of them. -/
def laid (items : List (Option String × List Char)) : List (List Char) :=
  items.flatMap fun item => item.1.toList.map labelRow ++ [item.2]

variable {items : List (Option String × List Char)}

theorem laid_append (before after : List (Option String × List Char)) :
    laid (before ++ after) = laid before ++ laid after :=
  List.flatMap_append

theorem laid_cons (item : Option String × List Char) :
    laid (item :: items) = item.1.toList.map labelRow ++ item.2 :: laid items := by
  rw [laid, List.flatMap_cons, List.append_assoc, List.singleton_append, laid]

theorem showsWord_labelRow (name : String) : showsWord (labelRow name) = false :=
  rfl

theorem wordRows_append (front back : List (List Char)) :
    wordRows (front ++ back) = wordRows front ++ wordRows back :=
  List.filter_append front back

theorem wordRows_label (label : Option String) : wordRows (label.toList.map labelRow) = [] := by
  rw [wordRows, List.filter_eq_nil_iff, List.forall_mem_map]
  exact fun name _ => Bool.eq_false_iff.1 (showsWord_labelRow name)

variable (rows : ∀ item ∈ items, showsWord item.2 = true)

include rows

theorem wordRows_laid : wordRows (laid items) = items.map Prod.snd := by
  induction items with
  | nil => rfl
  | cons item items ih =>
    rw [List.forall_mem_cons] at rows
    rw [laid_cons, wordRows_append, wordRows_label, wordRows, List.filter_cons_of_pos rows.1,
      ← wordRows, ih rows.2, List.map_cons, List.nil_append]

/-- A row of a word is that of one item, with the label of the item before it. -/
theorem exists_item {front back : List (List Char)} {row : List Char}
    (h : laid items = front ++ row :: back) (word : showsWord row = true) :
    ∃ before item after, items = before ++ item :: after ∧
      front = laid before ++ item.1.toList.map labelRow ∧ row = item.2 := by
  induction items generalizing front with
  | nil => cases front <;> cases h
  | cons item items ih =>
    rw [List.forall_mem_cons] at rows
    -- The row cannot be a label, so it is that of this item or one behind both of its rows.
    obtain ⟨_ | name, shown⟩ := item
    · cases front with
      | nil =>
        obtain ⟨rfl, -⟩ := List.cons.inj h
        exact ⟨[], _, items, rfl, rfl, rfl⟩
      | cons first front =>
        obtain ⟨rfl, later⟩ := List.cons.inj h
        obtain ⟨before, item, after, rfl, rfl, rfl⟩ := ih rows.2 later
        exact ⟨(none, shown) :: before, item, after, rfl, rfl, rfl⟩
    · cases front with
      | nil =>
        obtain ⟨rfl, -⟩ := List.cons.inj h
        cases word
      | cons first front =>
        obtain ⟨rfl, later⟩ := List.cons.inj h
        cases front with
        | nil =>
          obtain ⟨rfl, -⟩ := List.cons.inj later
          exact ⟨[], _, items, rfl, rfl, rfl⟩
        | cons second front =>
          obtain ⟨rfl, behind⟩ := List.cons.inj later
          obtain ⟨before, item, after, rfl, rfl, rfl⟩ := ih rows.2 behind
          exact ⟨(some name, shown) :: before, item, after, rfl, rfl, rfl⟩

/-- The last row before that of a word is a label exactly when the item has one. -/
theorem getLast?_laid_append (label : Option String) (name : String) :
    (laid items ++ label.toList.map labelRow).getLast? = some (labelRow name) ↔
      label = some name := by
  cases label with
  | some other =>
    rw [Option.toList_some, List.map_singleton, List.getLast?_concat, Option.some.injEq,
      Option.some.injEq]
    exact ⟨labelRow_injective, congrArg labelRow⟩
  | none =>
    rw [Option.toList_none, List.map_nil, List.append_nil]
    refine ⟨fun last => ?_, fun wrong => by cases wrong⟩
    obtain rfl | ⟨before, item, rfl⟩ := List.eq_nil_or_concat items
    · cases last
    · rw [List.concat_eq_append, laid, List.flatMap_append, List.flatMap_singleton, ← List.append_assoc,
        List.getLast?_concat] at last
      have word := rows item (by simp)
      rw [Option.some.inj last] at word
      cases word

end Laid

/-! ## The rows of a listing -/

variable {words : Array UInt16} {labels : LabelMap} {bits : Bool}

/-- The words of a program at the places of their indices, with the labels found there. -/
def items (words : Array UInt16) (labels : LabelMap) (bits : Bool) :
    List (Option String × List Char) :=
  words.toList.zipIdx.map fun p =>
    (labels[p.2.toUInt16]?, wordRow words labels bits (p.2 % 65536) p.1)

/-- Such a row starts with a blank or a digit. -/
theorem showsWord_wordRow (addr : Nat) (word : UInt16) :
    showsWord (wordRow words labels bits addr word) = true := by
  have filled : List.replicate (5 - addr.repr.length) ' ' ++ addr.repr.toList ≠ [] :=
    List.append_ne_nil_of_right_ne_nil _ (Text.repr_ne_nil addr)
  rw [showsWord, bne_iff_ne, wordRow, List.append_assoc, List.append_assoc]
  intro paren
  have mem := Statement.mem_head?_append filled _ paren
  obtain pad | digit := List.mem_append.1 mem
  · exact absurd (List.eq_of_mem_replicate pad) (by decide)
  · exact absurd (Text.isDigit_of_mem_repr digit) (by decide)

theorem showsWord_items : ∀ item ∈ items words labels bits, showsWord item.2 = true := by
  rw [items, List.forall_mem_map]
  exact fun p _ => showsWord_wordRow _ _

theorem getElem?_items (i : Nat) : (items words labels bits)[i]? =
    words[i]?.map fun word => (labels[i.toUInt16]?, wordRow words labels bits (i % 65536) word) := by
  rw [items, List.getElem?_map, List.getElem?_zipIdx, Array.getElem?_toList, Option.map_map,
    Nat.zero_add]
  rfl

theorem map_toList_wordLines (index : Nat) (word : UInt16) :
    (wordLines words labels bits index word).map String.toList =
      labels[index.toUInt16]?.toList.map labelRow ++
        [wordRow words labels bits (index % 65536) word] := by
  have shown : (wordText words labels index word).toList =
      shownWord words labels index.toUInt16.toNat word := by
    unfold wordText shownWord
    cases Instr.decode? word with
    | some i => rfl
    | none => simp
  have row : (Text.padLeft 5 (Text.decimal index.toUInt16) ++ ": " ++
      (if bits then String.ofList (Text.binaryDigits (words.getD index.toUInt16.toNat 0)) ++ "  "
        else "") ++ wordText words labels index word).toList =
      wordRow words labels bits index.toUInt16.toNat word := by
    rw [wordRow, String.toList_append, shown]
    cases bits <;> simp [Text.padLeft, Text.decimal]
  have place : index.toUInt16.toNat = index % 65536 := rfl
  rw [← place, ← row, wordLines]
  cases labels[index.toUInt16]? with
  | some name => simp [labelRow]
  | none => rfl

theorem map_toList_lines :
    (lines words labels bits).map String.toList = laid (items words labels bits) := by
  rw [lines, List.map_flatMap, laid, items, List.flatMap_map]
  exact List.flatMap_congr fun p _ => map_toList_wordLines _ _

/-- An address of sixteen bits is what they leave of an index. -/
theorem exists_addr_iff (i : Nat) (name : String) :
    (∃ addr : UInt16, addr.toNat = i % 65536 ∧ labels[addr]? = some name) ↔
      labels[i.toUInt16]? = some name := by
  constructor
  · rintro ⟨addr, place, there⟩
    obtain rfl : addr = i.toUInt16 := UInt16.toNat_inj.1 place
    exact there
  · exact fun there => ⟨_, rfl, there⟩

/-- What stands around the row of a word, which is that of the word with the index that is counted. -/
theorem exists_word {front back : List (List Char)} {row : List Char}
    (here : laid (items words labels bits) = front ++ row :: back) (shows : showsWord row = true) :
    ∃ before, (∀ item ∈ before, showsWord item.2 = true) ∧
      (wordRows front).length = before.length ∧
      front = laid before ++ labels[before.length.toUInt16]?.toList.map labelRow ∧
      ∃ word, words[before.length]? = some word ∧
        row = wordRow words labels bits (before.length % 65536) word := by
  obtain ⟨before, item, after, cut, rfl, rfl⟩ := exists_item showsWord_items here shows
  have plain : ∀ item ∈ before, showsWord item.2 = true := fun other mem =>
    showsWord_items other (cut ▸ List.mem_append_left _ mem)
  have found : (items words labels bits)[before.length]? = some item := by simp [cut]
  rw [getElem?_items, Option.map_eq_some_iff] at found
  obtain ⟨word, there, rfl⟩ := found
  refine ⟨before, plain, ?_, rfl, word, there, rfl⟩
  rw [wordRows_append, wordRows_laid plain, wordRows_label, List.append_nil, List.length_map]

/-- Every word has a row. -/
theorem exists_row {i : Nat} (inside : i < words.size) :
    ∃ front row back, laid (items words labels bits) = front ++ row :: back ∧
      showsWord row = true ∧ (wordRows front).length = i := by
  have bound : i < (items words labels bits).length := by
    rwa [items, List.length_map, List.length_zipIdx, Array.length_toList]
  let item := (items words labels bits)[i]
  have mem : item ∈ items words labels bits := List.getElem_mem bound
  have plain : ∀ other ∈ (items words labels bits).take i, showsWord other.2 = true := fun other mem =>
    showsWord_items other (List.mem_of_mem_take mem)
  refine ⟨laid ((items words labels bits).take i) ++ item.1.toList.map labelRow, item.2,
    laid ((items words labels bits).drop (i + 1)), ?_, showsWord_items item mem, ?_⟩
  · conv => lhs; rw [← List.take_append_drop i (items words labels bits),
      List.drop_eq_getElem_cons bound, laid_append, laid_cons]
    exact (List.append_assoc _ _ _).symm
  · rw [wordRows_append, wordRows_laid plain, wordRows_label, List.append_nil, List.length_map,
      List.length_take, Nat.min_eq_left (Nat.le_of_lt bound)]

/-- Other places that are the same for the words there are. -/
theorem Shows.congr {place place' : Nat → Nat} (h : Shows place words labels bits)
    (same : ∀ i < words.size, place i = place' i) : Shows place' words labels bits := by
  have counted {front row back} (here : rowsOf (render words labels bits) = front ++ row :: back)
      (shows : showsWord row = true) :
      place (wordRows front).length = place' (wordRows front).length := by
    obtain ⟨word, there, -⟩ := h.row front row back here shows
    exact same _ (Array.getElem?_eq_some_iff.1 there).1
  refine ⟨h.ended, h.count, fun front row back here shows => ?_, fun front row back here shows => ?_⟩
  · rw [← counted here shows]
    exact h.row front row back here shows
  · rw [← counted here shows]
    exact h.label front row back here shows

/-- Rows show different addresses where the word behind the last address is shown. -/
theorem wordRow_behind_ne (word other : UInt16) :
    wordRow words labels bits 65536 word ≠ wordRow words labels bits 0 other := by
  have six : (Nat.repr 65536).toList = '6' :: "5536".toList ∧ (Nat.repr 65536).length = 5 := by decide
  have far : (wordRow words labels bits 65536 word).head? = some '6' := by
    rw [wordRow, six.1, six.2]
    rfl
  have near : (wordRow words labels bits 0 other).head? = some ' ' := rfl
  intro same
  rw [same, near] at far
  cases far

section Single

variable (single : ∀ (addr : UInt16) name, labels[addr]? = some name → '\n' ∉ name.toList)

include single

theorem feed_notMem_shownWord (addr : Nat) (word : UInt16) : '\n' ∉ shownWord words labels addr word := by
  unfold shownWord
  cases decoded : Instr.decode? word with
  | some i =>
    dsimp only
    rw [← text_shownStatement]
    obtain same | ⟨value, name, -, there, same⟩ :=
      shownStatement_cases labels i (words[addr + 1]?.bind Instr.decode?)
    · rw [same]
      have proper : (Statement.instr i : Statement String).Proper :=
        (Instr.decode?_eq_some_iff.1 decoded).1
      exact fun feed => absurd (proper.endsLine_text _ feed) (by decide)
    · rw [same]
      simpa [Statement.text] using single value name there
  | none =>
    have digit : ∀ d < 16, Nat.digitChar d ≠ '\n' := by decide
    simp only [Text.hexDigits, List.mem_append, List.mem_map, not_or, not_exists, not_and]
    refine ⟨by decide, fun shift _ => digit _ (Nat.mod_lt _ (by decide))⟩

theorem feed_notMem_laid : ∀ row ∈ laid (items words labels bits), '\n' ∉ row := by
  rw [laid, items, List.flatMap_map]
  refine List.forall_mem_flatMap.2 fun p _ => List.forall_mem_append.2 ⟨?_, ?_⟩
  · rw [List.forall_mem_map]
    intro name there
    have free := single _ name (Option.mem_toList.1 there)
    simpa [labelRow] using free
  · rw [List.forall_mem_singleton, wordRow]
    have pad : '\n' ∉ List.replicate (5 - (p.2 % 65536).repr.length) ' ' := fun feed =>
      absurd (List.eq_of_mem_replicate feed) (by decide)
    have digits : '\n' ∉ (p.2 % 65536).repr.toList := fun feed =>
      absurd (Text.isDigit_of_mem_repr feed) (by decide)
    have raw : '\n' ∉ (if bits then
        Text.binaryDigits (words.getD (p.2 % 65536) 0) ++ [' ', ' '] else []) := by
      intro feed
      split at feed
      · obtain digit | pad := List.mem_append.1 feed
        · obtain wrong | wrong := (Text.wordDigits_binaryDigits _).digits _ digit <;> cases wrong
        · exact absurd pad (by decide)
      · cases feed
    simp only [List.mem_append, not_or]
    exact ⟨⟨⟨⟨pad, digits⟩, by decide⟩, raw⟩, feed_notMem_shownWord single _ _⟩

theorem splitAt_render : Text.splitAt (· == '\n') (render words labels bits).toList =
      laid (items words labels bits) ++ [[]] := by
  rw [toList_render, map_toList_lines, Text.splitAt_flatMap (feed_notMem_laid single)]

theorem rowsOf_render : rowsOf (render words labels bits) = laid (items words labels bits) := by
  rw [rowsOf, splitAt_render single, List.dropLast_concat]

/-- A listing shows every word at the address that sixteen bits leave of its index. -/
theorem shows_cut : Shows (· % 65536) words labels bits := by
  refine ⟨?_, ?_, fun front row back here shows => ?_, fun front row back here shows name => ?_⟩
  · rw [splitAt_render single, List.getLast?_concat]
  · rw [rowsOf_render single, wordRows_laid showsWord_items, List.length_map, items, List.length_map,
      List.length_zipIdx, Array.length_toList]
  · rw [rowsOf_render single] at here
    obtain ⟨before, -, count, -, found⟩ := exists_word here shows
    rwa [count]
  · rw [rowsOf_render single] at here
    obtain ⟨before, plain, count, rfl, -⟩ := exists_word here shows
    rw [getLast?_laid_append plain, count, exists_addr_iff]

/-- The addresses are the indices as long as there are enough of them, and only then. -/
theorem shows_id_iff : Shows id words labels bits ↔ words.size ≤ 65536 := by
  have cut : Shows (· % 65536) words labels bits := shows_cut single
  constructor
  · intro indexed
    by_contra many
    obtain ⟨front, row, back, here, shows, count⟩ :=
      @exists_row words labels bits _ (Nat.lt_of_not_le many)
    rw [← rowsOf_render single] at here
    obtain ⟨word, -, shown⟩ := indexed.row front row back here shows
    obtain ⟨other, -, shown'⟩ := cut.row front row back here shows
    rw [count] at shown shown'
    exact wordRow_behind_ne word other (shown.symm.trans shown')
  · intro few
    exact cut.congr fun i inside => Nat.mod_eq_of_lt (Nat.lt_of_lt_of_le inside few)

end Single

/-- Whatever the number of words, a listing shows each at the address that sixteen bits leave of its
index. It shows them by their indices exactly when there are no more than 65536. -/
theorem render_shows
    (single : ∀ (addr : UInt16) name, labels[addr]? = some name → '\n' ∉ name.toList) :
    Shows (· % 65536) words labels bits ∧
      (Shows id words labels bits ↔ words.size ≤ 65536) :=
  ⟨shows_cut single, shows_id_iff single⟩

theorem render_shows_loop :
    Shows id #[0, 60039] (LabelMap.ofNames [⟨0, "LOOP"⟩]) true := by
  refine (render_shows fun addr name there => ?_).2.2 (by decide)
  rw [LabelMap.ofNames, List.foldl_cons, List.foldl_nil, Std.TreeMap.getElem?_insert] at there
  split at there
  · obtain rfl := Option.some.inj there
    decide
  · rw [Std.TreeMap.getElem?_emptyc] at there
    cases there

/-- The last of as many zeros as fit behind a five is shown at address 0, with the bits of the five. -/
theorem not_shows_beyond_addresses :
    ¬Shows id (#[5] ++ Array.replicate 65536 0) ∅ true := by
  rw [shows_id_iff fun addr name there => ?_, Array.size_append, Array.size_replicate]
  · decide
  · rw [Std.TreeMap.getElem?_emptyc] at there
    cases there

end HackPlatform.Asm.Listing
