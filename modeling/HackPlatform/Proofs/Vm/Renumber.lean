import HackPlatform.Proofs.Vm.Reading

/-!
# Renumbered labels

The labels that the translator makes carry a number, and only these do: a made label is known by how
it is written. So the numbers can be raised in the text of a program, line by line, which is the
same as raising them in the names before they are written.
-/

namespace HackPlatform.Vm

open Asm (Statement isMark)

/-- The name with the number of a made label raised; no other name has a number. -/
def Symbol.renumber (k : Nat) : Symbol → Symbol
  | made mark number => made mark (number + k)
  | a => a

/-- The line with the numbers of made labels raised. -/
def Line.renumber (k : Nat) : Line → Line
  | note text => note text
  | code s => code (s.map (Symbol.renumber k))

/-- The page with the numbers of made labels raised. -/
def Page.renumber (k : Nat) (page : Page) : Page :=
  ⟨page.lines.map (Line.renumber k)⟩

/-- The stem and the number of a made label, as it is written: `$`, a stem without another one, `_`
and a numeral. -/
def madeParts? : List Char → Option (List Char × Nat)
  | '$' :: rest =>
    if '$' ∈ rest then none
    else do
      let (digits, stem) ← Text.splitOnce? '_' rest.reverse
      let number ← Text.readDecimal? digits.reverse
      return ('$' :: stem.reverse, number)
  | _ => none

/-- A name with its number raised, if it is written like a made label. -/
def renumberName (k : Nat) (name : List Char) : List Char :=
  match madeParts? name with
  | some (stem, number) => stem ++ '_' :: (number + k).repr.toList
  | none => name

/-- A line of assembly source with the number raised in the name that it defines or refers to. -/
def renumberLine (k : Nat) : List Char → List Char
  | '@' :: name => '@' :: renumberName k name
  | '(' :: rest => '(' :: (renumberName k rest.dropLast ++ rest.getLast?.toList)
  | line => line

/-- Assembly source with the numbers of made labels raised. -/
def renumberText (k : Nat) (text : String) : String :=
  String.ofList
    (['\n'].intercalate ((Text.splitAt (· == '\n') text.toList).map (renumberLine k)))

/-! ## Made labels are known by their texts -/

theorem madeParts?_made {mark : Mark} (h : mark.Sound) (number : Nat) :
    madeParts? (Symbol.made mark number).text.toList = some ('$' :: mark.text.toList, number) := by
  have digits : '_' ∉ number.repr.toList.reverse := by
    rw [List.mem_reverse]
    exact fun mem => absurd (Text.isDigit_of_mem_repr mem) (by decide)
  have turned : (mark.text.toList ++ '_' :: number.repr.toList).reverse =
      number.repr.toList.reverse ++ '_' :: mark.text.toList.reverse := by
    simp
  rw [Symbol.toList_made, madeParts?, if_neg (Symbol.made_tail_lacks_reserved h number), turned,
    Text.splitOnce?_append_cons digits]
  simp only [Option.bind_eq_bind, Option.bind_some, List.reverse_reverse, Text.readDecimal?_repr,
    Option.pure_def]

/-- What is written like a made label has the reserved character in front only and a numeral at the
end. -/
theorem madeParts?_eq_some {name stem : List Char} {number : Nat}
    (h : madeParts? name = some (stem, number)) :
    Symbol.shape name = 2 ∧
      ∃ digits, name = stem ++ '_' :: digits ∧ ∀ c ∈ digits, c.isDigit = true := by
  unfold madeParts? at h
  split at h
  · next rest =>
    split at h
    · cases h
    · next single =>
      obtain ⟨⟨digits, front⟩, cut, h⟩ := Option.bind_eq_some_iff.1 h
      obtain ⟨value, read, h⟩ := Option.bind_eq_some_iff.1 h
      cases h
      refine ⟨?_, digits.reverse, ?_, (Text.readDecimal?_eq_some read).2.1⟩
      · rw [Symbol.shape, if_neg (by simp), if_neg (by simp), List.tail_cons, if_pos single]
      · have whole := congrArg List.reverse (Text.eq_append_of_splitOnce? cut)
        rw [List.reverse_reverse] at whole
        rw [whole]
        simp
  · cases h

/-- A name that does not start with the reserved character is written like no made label. -/
theorem madeParts?_of_head {name : List Char} (h : name.head? ≠ some '$') :
    madeParts? name = none := by
  unfold madeParts?
  split
  · exact absurd rfl h
  · rfl

/-- A name that is no made label is not written like one. -/
theorem madeParts?_of_ne_made {a : Symbol} (sound : a.Sound)
    (other : ∀ mark number, a ≠ .made mark number) : madeParts? a.text.toList = none := by
  rw [Option.eq_none_iff_forall_not_mem]
  rintro ⟨stem, number⟩ parts
  obtain ⟨shape, digits, whole, numeral⟩ := madeParts?_eq_some parts
  cases a with
  | register r =>
    rw [Symbol.shape, if_pos (Symbol.register_lacks_reserved r)] at shape
    cases shape
  | static unit index =>
    rw [Symbol.toList_static] at whole
    obtain ⟨-, sign, -⟩ := append_cons_inj_last (p := (Char.isDigit · = true))
      (fun _ => Text.isDigit_of_mem_repr) (by decide) numeral (by decide) whole
    cases sign
  | made mark number => exact other mark number rfl
  | function name => cases (Symbol.shape_text (a := .function name) sound).symm.trans shape
  | inFunction f name => cases (Symbol.shape_text (a := .inFunction f name) sound).symm.trans shape
  | inUnit unit name => cases (Symbol.shape_text (a := .inUnit unit name) sound).symm.trans shape

/-- Raising the number in a written name raises it in the name. -/
theorem renumberName_text {a : Symbol} (sound : a.Sound) (k : Nat) :
    renumberName k a.text.toList = (a.renumber k).text.toList := by
  cases a with
  | made mark number =>
    rw [renumberName, madeParts?_made sound, Symbol.renumber, Symbol.toList_made mark (number + k)]
    rfl
  | register | static | function | inFunction | inUnit =>
    rw [renumberName, madeParts?_of_ne_made sound fun _ _ => Symbol.noConfusion]
    rfl

example : renumberName 3 "$RETURN_Math.f_8".toList = "$RETURN_Math.f_11".toList := by decide

example : renumberName 3 "$Unit$x_8".toList = "$Unit$x_8".toList := by decide

/-- A line that starts with no mark holds no name. -/
theorem renumberLine_of_head {line : List Char} (h : ∀ c ∈ line.head?, isMark c = false) (k : Nat) :
    renumberLine k line = line := by
  unfold renumberLine
  split
  · exact absurd (h '@' rfl) (by decide)
  · exact absurd (h '(' rfl) (by decide)
  · rfl

/-- Raising the numbers in a written line raises them in the line. -/
theorem renumberLine_body {line : Line} (readable : line.Readable)
    (sound : ∀ s, line = .code s → ∀ a ∈ nameOf? s, a.Sound) (k : Nat) :
    renumberLine k line.body = (line.renumber k).body := by
  cases line with
  | note text => exact renumberLine_of_head (by rintro c ⟨rfl⟩; decide) k
  | code s =>
    cases s with
    | label a =>
      have body (b : Symbol) : (Line.code (.label b)).body = '(' :: (b.text.toList ++ [')']) := by
        simp [Line.body, Statement.map, Statement.text]
      rw [Line.renumber, Statement.map, body, body, renumberLine, List.dropLast_concat,
        List.getLast?_concat, renumberName_text (sound _ rfl a rfl)]
      rfl
    | reference a =>
      have body (b : Symbol) : (Line.code (.reference b)).body = '@' :: b.text.toList := by
        simp [Line.body, Statement.map, Statement.text]
      rw [Line.renumber, Statement.map, body, body, renumberLine,
        renumberName_text (sound _ rfl a rfl)]
    | instr i =>
      cases i with
      | address value =>
        have body : (Line.code (.load value)).body = '@' :: (Text.decimal value).toList := by
          simp [Line.body, Statement.load, Statement.map, Statement.text, Instr.text]
        have first : (Text.decimal value).toList.head? ≠ some '$' := fun head =>
          absurd (Text.isDigit_of_mem_decimal (List.mem_of_mem_head? head)) (by decide)
        show renumberLine k (Line.code (.load value)).body = (Line.code (.load value)).body
        rw [body, renumberLine, renumberName, madeParts?_of_head first]
      | compute dest comp jump => exact renumberLine_of_head (Statement.head_compute readable) k

/-- Raising the numbers in the text of a page raises them on the page. -/
theorem renumberText_page {page : Page} (readable : ∀ l ∈ page.lines.toList, l.Readable)
    (sound : ∀ s, .code s ∈ page.lines.toList → ∀ a ∈ nameOf? s, a.Sound) (k : Nat) :
    renumberText k page.text = (page.renumber k).text := by
  have breaks : ∀ raw ∈ page.lines.toList.map Line.body, '\n' ∉ raw := by
    intro raw mem
    obtain ⟨line, there, rfl⟩ := List.mem_map.1 mem
    exact (readable line there).no_break
  have bodies : (page.lines.toList.map Line.body).map (renumberLine k) =
      (page.renumber k).lines.toList.map Line.body := by
    rw [Page.renumber, Array.toList_map, List.map_map, List.map_map]
    refine List.map_congr_left fun line mem => ?_
    exact renumberLine_body (readable line mem) (fun s same => sound s (same ▸ mem)) k
  have empty : [([] : List Char)].map (renumberLine k) = [[]] := rfl
  rw [← String.toList_inj, renumberText, String.toList_ofList, Page.toList_text, Page.toList_text,
    Text.splitAt_flatMap breaks, List.map_append, bodies, empty, Text.intercalate_concat_nil]

end HackPlatform.Vm
