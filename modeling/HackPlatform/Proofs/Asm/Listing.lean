import HackPlatform.Asm.Listing
import HackPlatform.Proofs.Asm.Disassembly

/-!
# Listings as source text

A listing without its addresses is source text again. Where every label that it shows stands at a
word of the program, each name is defined once and at its address, so a load that is shown under a
name still loads the same value, and the text assembles to the words that were listed.
-/

namespace HackPlatform.Asm

open Text (endsLine)

namespace Listing

/-- A line of a listing without its address; the line of a label has none. -/
def bareLine (line : List Char) : List Char :=
  if line.head? = some '(' then line else line.drop 7

/-- A listing as source text: its lines without their addresses. -/
def toSource (listing : String) : String :=
  "\n".intercalate ((Text.lines listing.toList).map fun line => String.ofList (bareLine line))

end Listing

/-- The statement that is shown for an instruction: a load before a jump refers to the label of its
value, if there is one. -/
def shownStatement (labels : LabelMap) (i : Instr) (next : Option Instr) : Statement String :=
  match i, next with
  | .address value, some (.compute _ _ jump) =>
    match if jump = .never then none else labels[value]? with
    | some name => .reference name
    | none => .instr i
  | _, _ => .instr i

theorem text_shownStatement (labels : LabelMap) (i : Instr) (next : Option Instr) :
    (shownStatement labels i next).text = labelledText labels i next := by
  cases i with
  | compute => rfl
  | address value =>
    obtain _ | _ | ⟨_, _, jump⟩ := next
    · rfl
    · rfl
    · simp only [shownStatement, labelledText]
      generalize (if jump = .never then none else labels[value]?) = found
      cases found <;> rfl

/-- What is shown for an instruction is that instruction, or the label of the address it loads. -/
theorem shownStatement_cases (labels : LabelMap) (i : Instr) (next : Option Instr) :
    shownStatement labels i next = .instr i ∨
      ∃ value name, i = .address value ∧ labels[value]? = some name ∧
        shownStatement labels i next = .reference name := by
  unfold shownStatement
  split
  · next value _ _ jump =>
    split
    · next name shown =>
      by_cases never : jump = .never
      · rw [if_pos never] at shown
        cases shown
      · rw [if_neg never] at shown
        exact .inr ⟨value, name, rfl, shown, rfl⟩
    · exact .inl rfl
  · exact .inl rfl

/-- The statements that a listing shows for a word: the label at its address and its instruction. -/
def shownAt (words : Array UInt16) (labels : LabelMap) (index : Nat) (word : UInt16) :
    List (Statement String) :=
  labels[index.toUInt16]?.toList.map .label ++
    (Instr.decode? word).toList.map fun i =>
      shownStatement labels i (words[index + 1]?.bind Instr.decode?)

theorem shownAt_eq {words : Array UInt16} {labels : LabelMap} {index : Nat} {word : UInt16}
    {i : Instr} (decoded : Instr.decode? word = some i) :
    shownAt words labels index word =
      labels[index.toUInt16]?.toList.map .label ++
        [shownStatement labels i (words[index + 1]?.bind Instr.decode?)] := by
  rw [shownAt, decoded]
  rfl

/-- The statements that a listing shows. -/
def shown (words : Array UInt16) (labels : LabelMap) : List (Statement String) :=
  words.toList.zipIdx.flatMap fun p => shownAt words labels p.2 p.1

section Lines

variable {words : Array UInt16} {labels : LabelMap} {index : Nat} {word : UInt16} {i : Instr}

/-- The address in front of a line, with the colon and the blank behind it. -/
def addressColumn (addr : UInt16) : List Char :=
  (Text.padLeft 5 (Text.decimal addr) ++ ": ").toList

theorem toList_addressColumn (addr : UInt16) :
    addressColumn addr =
      List.replicate (5 - (Text.decimal addr).length) ' ' ++ (Text.decimal addr).toList ++
        [':', ' '] := by
  simp [addressColumn, Text.padLeft]

theorem length_addressColumn (addr : UInt16) : (addressColumn addr).length = 7 := by
  have digits := Text.length_decimal_le addr
  simp only [toList_addressColumn, List.length_append, List.length_replicate, String.length_toList,
    List.length_cons, List.length_nil]
  omega

/-- The column consists of blanks, digits and a colon. -/
theorem mem_addressColumn {addr : UInt16} {c : Char} (h : c ∈ addressColumn addr) :
    c = ' ' ∨ c.isDigit = true ∨ c = ':' := by
  rw [toList_addressColumn, List.mem_append, List.mem_append] at h
  obtain (pad | digit) | mark := h
  · exact .inl (List.eq_of_mem_replicate pad)
  · exact .inr (.inl (Text.isDigit_of_mem_decimal digit))
  · obtain rfl | rfl : c = ':' ∨ c = ' ' := by simpa using mark
    · exact .inr (.inr rfl)
    · exact .inl rfl

/-- Dropping the address leaves what stands behind it. -/
theorem bareLine_addressColumn (addr : UInt16) (text : List Char) :
    Listing.bareLine (addressColumn addr ++ text) = text := by
  have filled : addressColumn addr ≠ [] := by
    rw [← List.length_pos_iff, length_addressColumn]
    decide
  have other : (addressColumn addr ++ text).head? ≠ some '(' := by
    intro head
    have mem := Statement.mem_head?_append filled _ head
    obtain wrong | wrong | wrong := mem_addressColumn mem <;> exact absurd wrong (by decide)
  rw [Listing.bareLine, if_neg other]
  exact List.drop_left' (length_addressColumn addr)

/-- The lines of a word that is an instruction. -/
theorem wordLines_eq (fits : index < 65536) (decoded : Instr.decode? word = some i) :
    (Listing.wordLines words labels false index word).map String.toList =
      (labels[index.toUInt16]?.toList.map fun name => (Statement.label name).text.toList) ++
        [addressColumn index.toUInt16 ++
          (shownStatement labels i (words[index + 1]?.bind Instr.decode?)).text.toList] := by
  have text : Listing.wordText words labels index word =
      (shownStatement labels i (words[index + 1]?.bind Instr.decode?)).text := by
    simp only [Listing.wordText, decoded, toNat_toUInt16 fits, text_shownStatement]
  unfold Listing.wordLines
  simp only [text]
  cases labels[index.toUInt16]? <;> simp [addressColumn, Statement.text]

theorem bareLine_label (name : String) :
    Listing.bareLine (Statement.label name).text.toList = (Statement.label name).text.toList := by
  rw [Listing.bareLine, if_pos]
  simp [Statement.text]

/-- Without its address, a line is the statement that it shows. -/
theorem bareLine_wordLines (fits : index < 65536) (decoded : Instr.decode? word = some i) :
    (Listing.wordLines words labels false index word).map
        (fun line => String.ofList (Listing.bareLine line.toList)) =
      (shownAt words labels index word).map Statement.text := by
  have lines := congrArg (List.map fun line => String.ofList (Listing.bareLine line))
    (@wordLines_eq words labels _ _ _ fits decoded)
  rw [List.map_map] at lines
  refine lines.trans ?_
  rw [shownAt_eq decoded]
  cases labels[index.toUInt16]? <;> simp [bareLine_addressColumn, bareLine_label]

end Lines

theorem endsLine_addressColumn {addr : UInt16} : ∀ c ∈ addressColumn addr, endsLine c = false := by
  intro c mem
  obtain rfl | digit | rfl := mem_addressColumn mem
  · decide
  · exact isPlain_endsLine (isPlain_of_isDigit digit)
  · decide

theorem toList_render (words : Array UInt16) (labels : LabelMap) (bits : Bool) :
    (Listing.render words labels bits).toList =
      ((Listing.lines words labels bits).map String.toList).flatMap (· ++ ['\n']) := by
  have step : (fun (text line : String) => text ++ line ++ "\n") =
      fun text line => text ++ (line ++ "\n") := by
    funext text line
    exact String.append_assoc
  rw [Listing.render, step, Text.toList_foldl_append, List.flatMap_map]
  simp

/-! ## Reading a listing -/

/-- The names of a map are those of labels: each may be defined, at one address, where a word
stands. -/
structure LabelMap.Fits (labels : LabelMap) (size : Nat) : Prop where
  named : ∀ (addr : UInt16) name, labels[addr]? = some name →
    isName name.toList = true ∧ (predefined.lookup name).isSome = false
  inside : ∀ (addr : UInt16) name, labels[addr]? = some name → addr.toNat < size
  distinct : ∀ (addr other : UInt16) name, labels[addr]? = some name →
    labels[other]? = some name → addr = other

section Shown

variable {words : Array UInt16} {labels : LabelMap}

/-- A property of listed words may be shown from the instruction and the index of each. -/
theorem forall_listed {P : UInt16 × Nat → Prop} (size : words.size ≤ 32768)
    (decodes : ∀ w ∈ words.toList, (Instr.decode? w).isSome = true)
    (h : ∀ p ∈ words.toList.zipIdx, ∀ i, p.2 < 65536 → Instr.decode? p.1 = some i → P p) :
    ∀ p ∈ words.toList.zipIdx, P p := by
  intro p mem
  have inside : p.2 < words.toList.length + 0 := List.snd_lt_of_mem_zipIdx mem
  obtain ⟨i, decoded⟩ := Option.isSome_iff_exists.1 (decodes _ (List.fst_mem_of_mem_zipIdx mem))
  rw [Array.length_toList] at inside
  exact h p mem i (by omega) decoded

variable (size : words.size ≤ 32768)
  (decodes : ∀ w ∈ words.toList, (Instr.decode? w).isSome = true) (fits : labels.Fits words.size)

include size decodes fits

theorem proper_shown : ∀ s ∈ shown words labels, s.Proper := by
  refine List.forall_mem_flatMap.2 (forall_listed size decodes fun p _ i _ decoded => ?_)
  rw [shownAt_eq decoded]
  refine List.forall_mem_append.2 ⟨?_, List.forall_mem_singleton.2 ?_⟩
  · refine List.forall_mem_map.2 fun name mem => ?_
    exact (fits.named _ name (Option.mem_toList.1 mem)).1
  · obtain same | ⟨value, name, -, there, same⟩ :=
      shownStatement_cases labels i (words[p.2 + 1]?.bind Instr.decode?)
    · exact same ▸ (Instr.decode?_eq_some_iff.1 decoded).1
    · exact same ▸ (fits.named value name there).1

/-- No line of a listing has an end inside. -/
theorem endsLine_lines :
    ∀ line ∈ (Listing.lines words labels false).map String.toList, ∀ c ∈ line,
      endsLine c = false := by
  have proper := proper_shown size decodes fits
  rw [Listing.lines, List.map_flatMap]
  refine List.forall_mem_flatMap.2 (forall_listed size decodes fun p mem i low decoded => ?_)
  have statements : ∀ s ∈ shownAt words labels p.2 p.1, s.Proper :=
    fun s here => proper s (List.mem_flatMap.2 ⟨p, mem, here⟩)
  rw [wordLines_eq low decoded]
  rw [shownAt_eq decoded, List.forall_mem_append, List.forall_mem_map] at statements
  refine List.forall_mem_append.2 ⟨?_, List.forall_mem_singleton.2 ?_⟩
  · exact List.forall_mem_map.2 fun name there => (statements.1 name there).endsLine_text
  · refine List.forall_mem_append.2 ⟨endsLine_addressColumn, ?_⟩
    exact (statements.2 _ List.mem_cons_self).endsLine_text

/-- A listing without its addresses is the text of the statements that it shows. -/
theorem toSource_render :
    Listing.toSource (Listing.render words labels false) =
      "\n".intercalate ((shown words labels).map Statement.text) := by
  rw [Listing.toSource, toList_render,
    Text.lines_flatMap_eq_self (endsLine_lines size decodes fits), List.map_map, Listing.lines,
    List.map_flatMap, shown, List.map_flatMap]
  congr 1
  refine List.flatMap_congr (forall_listed size decodes fun p _ i low decoded => ?_)
  exact bareLine_wordLines low decoded

end Shown

section Positions

variable {labels : LabelMap} {words : Array UInt16}

theorem isWord_shownStatement (labels : LabelMap) (i : Instr) (next : Option Instr) :
    (shownStatement labels i next).isWord = true := by
  obtain same | ⟨_, _, -, -, same⟩ := shownStatement_cases labels i next <;> rw [same] <;> rfl

/-- Each word takes one word, with the label at its index in front. -/
theorem labelsFrom_shownAt {index : Nat} {word : UInt16} {i : Instr}
    (decoded : Instr.decode? word = some i) (code : List (Statement String)) :
    labelsFrom index (shownAt words labels index word ++ code) =
      labels[index.toUInt16]?.toList.map (·, index) ++ labelsFrom (index + 1) code := by
  have next (s : Statement String) (word : s.isWord = true) :
      labelsFrom index (s :: code) = labelsFrom (index + 1) code := by
    cases s <;> first | rfl | cases word
  rw [shownAt_eq decoded]
  cases labels[index.toUInt16]? <;> simp [labelsFrom, next _ (isWord_shownStatement ..)]

/-- The labels that a listing shows, at the indices of the words behind them. -/
theorem labelsFrom_shown (decodes : ∀ w ∈ words.toList, (Instr.decode? w).isSome = true) :
    labelsFrom 0 (shown words labels) =
      (List.range words.size).flatMap fun k => labels[k.toUInt16]?.toList.map (·, k) := by
  have from_ (listed : List UInt16) (start : Nat)
      (decodes : ∀ w ∈ listed, (Instr.decode? w).isSome = true) :
      labelsFrom start ((listed.zipIdx start).flatMap fun p => shownAt words labels p.2 p.1) =
        (List.range' start listed.length).flatMap fun k =>
          labels[k.toUInt16]?.toList.map (·, k) := by
    induction listed generalizing start with
    | nil => rfl
    | cons w listed ih =>
      rw [List.forall_mem_cons] at decodes
      obtain ⟨i, decoded⟩ := Option.isSome_iff_exists.1 decodes.1
      rw [List.zipIdx_cons, List.flatMap_cons, labelsFrom_shownAt decoded, ih _ decodes.2,
        List.length_cons, List.range'_succ, List.flatMap_cons]
  rw [shown, from_ words.toList 0 decodes, Array.length_toList, List.range_eq_range']

theorem wordCount_shown (decodes : ∀ w ∈ words.toList, (Instr.decode? w).isSome = true) :
    wordCount (shown words labels) = words.size := by
  have one : ∀ p ∈ words.toList.zipIdx, wordCount (shownAt words labels p.2 p.1) = 1 := by
    intro p mem
    obtain ⟨i, decoded⟩ := Option.isSome_iff_exists.1 (decodes _ (List.fst_mem_of_mem_zipIdx mem))
    rw [shownAt_eq decoded, wordCount_append, wordCount, wordCount, List.countP_singleton,
      if_pos (isWord_shownStatement ..)]
    cases labels[p.2.toUInt16]? <;> rfl
  rw [wordCount, shown, List.countP_flatMap]
  refine (congrArg List.sum (List.map_congr_left one)).trans ?_
  simp

/-- The shown statements have the listed words, where each name stands for the address that it is
shown at. -/
theorem words_shown {address : String → UInt16}
    (decodes : ∀ w ∈ words.toList, (Instr.decode? w).isSome = true)
    (h : ∀ (addr : UInt16) name, labels[addr]? = some name → address name = addr) :
    (shown words labels).filterMap (Statement.word? address) = words.toList := by
  have each : ∀ p ∈ words.toList.zipIdx,
      (shownAt words labels p.2 p.1).filterMap (Statement.word? address) = [p.1] := by
    intro p mem
    obtain ⟨i, decoded⟩ := Option.isSome_iff_exists.1 (decodes _ (List.fst_mem_of_mem_zipIdx mem))
    have whole : i.encode = p.1 := (Instr.decode?_eq_some_iff.1 decoded).2
    have word : Statement.word? address
        (shownStatement labels i (words[p.2 + 1]?.bind Instr.decode?)) = some p.1 := by
      obtain same | ⟨value, name, load, there, same⟩ :=
        shownStatement_cases labels i (words[p.2 + 1]?.bind Instr.decode?)
      · rw [same, Statement.word?, whole]
      · rw [same, Statement.word?, h value name there, ← load, whole]
    have label : (labels[p.2.toUInt16]?.toList.map .label).filterMap
        (Statement.word? address) = [] := by
      cases labels[p.2.toUInt16]? <;> rfl
    rw [shownAt_eq decoded, List.filterMap_append, label, List.filterMap_cons_some word]
    rfl
  rw [shown, List.filterMap_flatMap, List.flatMap_congr each, ← List.map_eq_flatMap,
    List.zipIdx_map_fst]

/-- A map's label stands at its address. -/
theorem mem_labelsFrom_shown (decodes : ∀ w ∈ words.toList, (Instr.decode? w).isSome = true)
    {addr : UInt16} {name : String} (there : labels[addr]? = some name)
    (inside : addr.toNat < words.size) :
    (name, addr.toNat) ∈ labelsFrom 0 (shown words labels) := by
  rw [labelsFrom_shown decodes]
  refine List.mem_flatMap.2 ⟨addr.toNat, List.mem_range.2 inside, ?_⟩
  have whole : addr.toNat.toUInt16 = addr := UInt16.ofNat_toNat
  rw [whole, there]
  exact List.mem_singleton.2 rfl

/-- The names that a listing defines are those of the map, by address. -/
theorem definedNames_shown (decodes : ∀ w ∈ words.toList, (Instr.decode? w).isSome = true) :
    definedNames (shown words labels) =
      (List.range words.size).filterMap fun k => labels[k.toUInt16]? := by
  rw [← map_fst_labelsFrom 0, labelsFrom_shown decodes, List.map_flatMap,
    List.filterMap_eq_flatMap_toList]
  congr 1
  funext k
  cases labels[k.toUInt16]? <;> rfl

end Positions

section Assembling

variable {words : Array UInt16} {labels : LabelMap} (size : words.size ≤ 32768)
  (decodes : ∀ w ∈ words.toList, (Instr.decode? w).isSome = true) (fits : labels.Fits words.size)

include size decodes fits

/-- The names of a listing can be entered. -/
theorem enterable_shown : Enterable (fun name => (predefined.lookup name).isSome)
    (definedNames (shown words labels)) := by
  rw [definedNames_shown decodes]
  refine ⟨?_, ?_⟩
  · intro name mem
    obtain ⟨k, -, there⟩ := List.mem_filterMap.1 mem
    exact (fits.named _ name there).2
  · refine List.pairwise_filterMap.2 (List.nodup_range.imp_of_mem ?_)
    rintro j k hj hk apart name here other there rfl
    have same := congrArg UInt16.toNat (fits.distinct _ _ name here there)
    rw [List.mem_range] at hj hk
    rw [toNat_toUInt16 (by omega), toNat_toUInt16 (by omega)] at same
    exact apart same

omit size in
/-- A listing has no variables: every name that it refers to, it defines. -/
theorem variableNames_shown : variableNames (shown words labels) = [] := by
  have known : ∀ name ∈ usedNames (shown words labels),
      ¬(!isFixed (shown words labels) name) = true := by
    intro name used
    obtain ⟨p, mem, there⟩ := List.mem_flatMap.1 (mem_usedNames.1 used)
    obtain ⟨i, decoded⟩ := Option.isSome_iff_exists.1 (decodes _ (List.fst_mem_of_mem_zipIdx mem))
    rw [shownAt_eq decoded, List.mem_append, List.mem_singleton, List.mem_map] at there
    obtain ⟨_, -, no⟩ | shown := there
    · cases no
    obtain same | ⟨value, name', -, here, same⟩ :=
      shownStatement_cases labels i (words[p.2 + 1]?.bind Instr.decode?)
    · rw [same] at shown
      cases shown
    · rw [same] at shown
      cases shown
      have defined := mem_labelsFrom_shown decodes here (fits.inside _ _ here)
      have mem := mem_definedNames.2 ((exists_mem_labelsFrom 0).1 ⟨_, defined⟩)
      simp [isFixed, mem]
  rw [variableNames, newNames, List.filter_eq_nil_iff.2 known]
  rfl

theorem roomy_shown : Roomy (shown words labels) := by
  refine ⟨?_, ?_, ?_⟩
  · rw [wordCount_shown decodes]
    exact size
  · intro row mem
    rw [labelsFrom_shown decodes] at mem
    obtain ⟨k, low, mem⟩ := List.mem_flatMap.1 mem
    obtain ⟨name, -, rfl⟩ := List.mem_map.1 mem
    exact Nat.le_of_lt_succ (Nat.lt_of_lt_of_le (List.mem_range.1 low) size)
  · rw [variableNames_shown decodes fits]
    exact Nat.zero_le _

/-- A listing with labels that fit assembles to the words that it lists. -/
theorem assemble_listing : ∃ p,
    assemble (Listing.toSource (Listing.render words labels false)) = .ok p ∧ p.words = words := by
  obtain ⟨located, read, code⟩ := readSource_intercalate (proper_shown size decodes fits)
  have roomy : Roomy (statementsOf located) := code ▸ roomy_shown size decodes fits
  have cases := assembleStatements_cases roomy
  rw [code] at cases
  obtain ⟨-, p, accepted⟩ | ⟨clash, -⟩ := cases
  · have assembled := assembled_of_assembleStatements accepted
    rw [code] at assembled
    refine ⟨p, ?_, ?_⟩
    · rw [assemble, toSource_render size decodes fits, read]
      exact accepted
    · rw [← Array.toList_inj, assembled.words]
      refine words_shown decodes fun addr name there => ?_
      have label := mem_labelsFrom_shown decodes there (fits.inside _ _ there)
      exact (assembled.address_label label).trans UInt16.ofNat_toNat
  · exact absurd (enterable_shown size decodes fits) clash

end Assembling

/-- What a map of names answers is one of the names. -/
theorem mem_of_ofNames {names : List AddressName} {addr : UInt16} {name : String}
    (h : (LabelMap.ofNames names)[addr]? = some name) : ⟨addr, name⟩ ∈ names := by
  have from_ (map : LabelMap) (there : (names.foldl (fun map n => map.insert n.addr n.name)
      map)[addr]? = some name) : map[addr]? = some name ∨ ⟨addr, name⟩ ∈ names := by
    clear h
    induction names generalizing map with
    | nil => exact .inl there
    | cons n names ih =>
      obtain old | mem := ih _ there
      · rw [Std.TreeMap.getElem?_insert] at old
        split at old
        · next same =>
          obtain rfl := Std.LawfulEqCmp.eq_of_compare same
          cases old
          exact .inr List.mem_cons_self
        · exact .inl old
      · exact .inr (List.mem_cons_of_mem _ mem)
  obtain none | mem := from_ ∅ h
  · rw [Std.TreeMap.getElem?_emptyc] at none
    cases none
  · exact mem

theorem le_of_mem_labelsFrom {name : String} {pc k : Nat} {code : List (Statement String)}
    (h : (name, k) ∈ labelsFrom pc code) : k ≤ pc + wordCount code := by
  induction code generalizing pc with
  | nil => cases h
  | cons s code ih =>
    cases s with
    | label other =>
      obtain same | mem := List.mem_cons.1 h
      · cases same
        exact Nat.le_add_right _ _
      · exact ih mem
    | reference other =>
      have rest := ih h
      rw [wordCount_reference]
      omega
    | instr i =>
      have rest := ih h
      rw [wordCount_instr]
      omega

/-- The map of a program's labels fits its words, if no label stands at their end. -/
theorem fits_ofNames {code : List (Statement String)} {p : Program} (assembled : Assembled code p)
    (resolved : Resolved code p) (proper : ∀ s ∈ code, s.Proper)
    (inside : ∀ row ∈ p.symbols.labels.toList, row.2.toNat ≠ p.words.size) :
    (LabelMap.ofNames p.symbols.names.labels).Fits p.words.size := by
  have label {addr : UInt16} {name : String}
      (there : (LabelMap.ofNames p.symbols.names.labels)[addr]? = some name) :
      (name, addr) ∈ p.symbols.labels.toList ∧ (name, addr.toNat) ∈ labelsFrom 0 code := by
    obtain ⟨row, mem, same⟩ := List.mem_map.1 (mem_of_ofNames there)
    cases same
    rw [resolved.listed] at mem
    rw [← resolved.labels]
    exact ⟨mem, List.mem_map.2 ⟨row, mem, rfl⟩⟩
  refine ⟨?_, ?_, ?_⟩
  · intro addr name there
    obtain ⟨-, mem⟩ := label there
    refine ⟨proper _ ((exists_mem_labelsFrom 0).1 ⟨_, mem⟩), ?_⟩
    rw [Option.isSome_eq_false_iff, Option.isNone_iff_eq_none, Option.eq_none_iff_forall_ne_some]
    exact fun v known => (assembled.label name _ mem).2 v (lookup_predefined.1 known)
  · intro addr name there
    obtain ⟨row, mem⟩ := label there
    have apart : addr.toNat ≠ p.words.size := inside _ row
    have bound := le_of_mem_labelsFrom mem
    rw [assembled.size_words] at apart ⊢
    omega
  · intro addr other name here there
    have first := assembled.toNat_label (label here).2
    rw [assembled.toNat_label (label there).2] at first
    exact (UInt16.toNat_inj.1 (Option.some.inj first)).symm

/-- The listing of a program with its own labels, of which none stands at the end, assembles to the
same words when the addresses are dropped. -/
theorem listing_denotes {source : String} {p : Program} (h : assemble source = .ok p)
    (inside : ∀ row ∈ p.symbols.labels.toList, row.2.toNat ≠ p.words.size) :
    ∃ again, assemble (Listing.toSource (Listing.render p.words
        (LabelMap.ofNames p.symbols.names.labels) false)) = .ok again ∧ again.words = p.words := by
  obtain ⟨located, read, passes⟩ := assemble_eq_ok h
  have assembled := assembled_of_assembleStatements passes
  have proper := proper_of_readSource read
  have size : p.words.size ≤ 32768 := by
    rw [assembled.size_words]
    exact assembled.fits
  exact assemble_listing size (assembled.decodes proper)
    (fits_ofNames assembled (resolved_of_assembleStatements passes) proper inside)

/-- A source with two labels at one address, a numeral and a variable before jumps that are loaded
at the addresses of labels, and a jump to an address without a label. -/
def crowded : String :=
  "(A)\n(B)\n@0\nD;JGT\n@x\nD;JEQ\n@5\n0;JMP\n@A\n0;JMP\n@x\nM=0\nM=0\nM=0\nM=0\nM=0\n" ++
    "M=0\nM=0\n(L)\n@L\n0;JMP"

theorem listing_denotes_crowded :
    ∃ p again, assemble crowded = .ok p ∧
      Listing.toSource (Listing.render p.words (LabelMap.ofNames p.symbols.names.labels) false) =
        "(B)\n@B\nD;JGT\n@L\nD;JEQ\n@5\n0;JMP\n@B\n0;JMP\n@16\nM=0\nM=0\nM=0\nM=0\nM=0\n" ++
          "M=0\nM=0\n(L)\n@L\n0;JMP" ∧
      assemble (Listing.toSource (Listing.render p.words
        (LabelMap.ofNames p.symbols.names.labels) false)) = .ok again ∧ again.words = p.words := by
  have facts : (assemble crowded).toOption.map (fun p =>
      (Listing.toSource (Listing.render p.words (LabelMap.ofNames p.symbols.names.labels) false),
        p.symbols.labels.toList.all fun row => row.2.toNat ≠ p.words.size)) =
      some ("(B)\n@B\nD;JGT\n@L\nD;JEQ\n@5\n0;JMP\n@B\n0;JMP\n@16\nM=0\nM=0\nM=0\nM=0\nM=0\n" ++
          "M=0\nM=0\n(L)\n@L\n0;JMP", true) := by
    decide +kernel
  cases accepted : assemble crowded with
  | error e =>
    rw [accepted] at facts
    cases facts
  | ok p =>
    rw [accepted] at facts
    obtain ⟨text, inside⟩ := Prod.mk.inj (Option.some.inj facts)
    obtain ⟨again, done, same⟩ := listing_denotes accepted fun row mem =>
      of_decide_eq_true (List.all_eq_true.1 inside row mem)
    exact ⟨p, again, rfl, text, done, same⟩

end HackPlatform.Asm
