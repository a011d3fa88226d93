import HackPlatform.Proofs.Asm.Reading
import HackPlatform.Proofs.Vm.Accepted
import HackPlatform.Vm.Command.Grammar

/-!
# Spelled commands

A command is written as its words with single blanks between them. The words of an accepted command
have neither blanks nor slashes, so its text is one line without a comment, and it is read back as
the command.
-/

namespace HackPlatform.Vm

open Asm (isName isPlain isPlain_iff isPlain_endsLine)
open Text (isBlank endsLine)

/-- A word of source text in which nothing can be cut. -/
structure Plain (word : List Char) : Prop where
  filled : word ≠ []
  letters : ∀ x ∈ word, isPlain x = true

/-- A word that blanks can separate from others. -/
structure Solid (word : List Char) : Prop where
  filled : word ≠ []
  letters : ∀ x ∈ word, isBlank x = false

theorem Plain.solid {word : List Char} (h : Plain word) : Solid word :=
  ⟨h.filled, fun x mem => (isPlain_iff.1 (h.letters x mem)).1⟩

theorem plain_iff {word : List Char} :
    (!word.isEmpty && word.all isPlain) = true ↔ Plain word := by
  rw [Bool.and_eq_true, Bool.not_eq_true', List.isEmpty_eq_false_iff, List.all_eq_true]
  exact ⟨fun h => ⟨h.1, h.2⟩, fun h => ⟨h.filled, h.letters⟩⟩

instance (word : List Char) : Decidable (Plain word) :=
  decidable_of_iff _ plain_iff

theorem plain_of_isName {word : List Char} (h : isName word = true) : Plain word := by
  refine ⟨?_, Asm.isPlain_of_isName h⟩
  rintro rfl
  cases h

theorem plain_decimal (w : UInt16) : Plain (Text.decimal w).toList :=
  ⟨Text.decimal_ne_nil w, fun _ mem => Asm.isPlain_of_isDigit (Text.isDigit_of_mem_decimal mem)⟩

theorem Segment.plain_name (segment : Segment) : Plain segment.name.toList := by
  cases segment <;> decide

theorem Operator.plain_name (op : Operator) : Plain op.name.toList := by
  cases op with
  | compare r => cases r <;> decide
  | _ => decide

theorem Kind.plain_keyword (kind : Kind) : Plain kind.keyword.toList := by
  cases kind <;> decide

namespace Command

/-- The words of a command. -/
def words : Command → List String
  | operate op => [op.name]
  | push segment index => [Kind.push.keyword, segment.name, Text.decimal index]
  | pop segment index => [Kind.pop.keyword, segment.name, Text.decimal index]
  | label name => [Kind.label.keyword, name]
  | goto name => [Kind.goto.keyword, name]
  | ifGoto name => [Kind.ifGoto.keyword, name]
  | function name n => [Kind.function.keyword, name, Text.decimal n]
  | call name n => [Kind.call.keyword, name, Text.decimal n]
  | ret => [Kind.ret.keyword]

theorem words_ne_nil (c : Command) : c.words ≠ [] := by
  cases c <;> exact List.cons_ne_nil _ _

theorem toList_text (c : Command) :
    c.text.toList = [' '].intercalate (c.words.map String.toList) := by
  cases c <;> simp [text, words, Kind.keyword, List.intercalate_cons_cons]

theorem readNumber_decimal (w : UInt16) : readNumber (Text.decimal w) = .ok w := by
  rw [readNumber, Text.readWord?_decimal]

theorem readPlace_name (segment : Segment) (index : UInt16) :
    readPlace segment.name (Text.decimal index) = .ok (segment, index) := by
  rw [readPlace, Segment.ofName?_name, readNumber_decimal]
  rfl

theorem ofWords_words (c : Command) : ofWords (c.words.headD "") c.words.tail = .ok c := by
  cases c with
  | operate op =>
    cases op with
    | compare r => cases r <;> rfl
    | _ => rfl
  | push segment index =>
    show (readPlace segment.name (Text.decimal index)).map _ = _
    rw [readPlace_name]
    rfl
  | pop segment index =>
    show (readPlace segment.name (Text.decimal index)).map _ = _
    rw [readPlace_name]
    rfl
  | function name n =>
    show (readNumber (Text.decimal n)).map _ = _
    rw [readNumber_decimal]
    rfl
  | call name n =>
    show (readNumber (Text.decimal n)).map _ = _
    rw [readNumber_decimal]
    rfl
  | _ => rfl

/-- The name in a command is a word, if there is one. -/
def Worded : Command → Prop
  | label name | goto name | ifGoto name | function name _ | call name _ => Solid name.toList
  | _ => True

section Worded

variable {c : Command} (h : c.Worded)

include h

theorem words_solid : ∀ w ∈ c.words.map String.toList, Solid w := by
  have keyword (kind : Kind) : Solid kind.keyword.toList := kind.plain_keyword.solid
  have number (w : UInt16) : Solid (Text.decimal w).toList := (plain_decimal w).solid
  cases c with
  | operate op => simp [words, op.plain_name.solid]
  | push segment index | pop segment index =>
    simp [words, keyword, segment.plain_name.solid, number]
  | label name | goto name | ifGoto name => simpa [words, keyword, Worded] using h
  | function name n | call name n => simpa [words, keyword, number, Worded] using h
  | ret => simp [words, keyword]

theorem words_filled : ∀ w ∈ c.words.map String.toList, w ≠ [] :=
  fun w mem => (words_solid h w mem).filled

theorem words_blanks : ∀ w ∈ c.words.map String.toList, ∀ x ∈ w, isBlank x = false :=
  fun w mem => (words_solid h w mem).letters

/-- A command is read back from its text. -/
theorem parse_text : parse c.text = .ok c := by
  have cut : wordsOf c.text = c.words := by
    rw [wordsOf, toList_text, Text.words_intercalate (words_blanks h) (words_filled h)
      (by simpa using c.words_ne_nil), List.map_map]
    simp
  rw [parse, cut, ofWords_words]

theorem text_ne_nil : c.text.toList ≠ [] := by
  rw [toList_text]
  exact Text.intercalate_ne_nil (words_filled h) (by simpa using c.words_ne_nil)

theorem trim_text : Text.trim c.text.toList = c.text.toList := by
  rw [toList_text, Text.trim_intercalate (words_blanks h) (words_filled h)]

end Worded

section Allowed

variable {s : Scope} {c : Command} (h : c.Allowed s)

include h

theorem words_plain : ∀ w ∈ c.words.map String.toList, Plain w := by
  cases c with
  | operate op => simp [words, op.plain_name]
  | push segment index | pop segment index =>
    simp [words, Kind.plain_keyword, segment.plain_name, plain_decimal]
  | label name | goto name | ifGoto name =>
    simp [words, Kind.plain_keyword, plain_of_isName h.1.1]
  | function name n | call name n =>
    simp [words, Kind.plain_keyword, plain_of_isName h.1.1, plain_decimal]
  | ret => simp [words, Kind.plain_keyword]

/-- The names that are accepted are words. -/
theorem worded_of_allowed : c.Worded := by
  cases c with
  | label name | goto name | ifGoto name | function name n | call name n =>
    exact (plain_of_isName h.1.1).solid
  | _ => trivial

/-- Blanks between the words are all that is cut in the text of an accepted command. -/
theorem mem_text {x : Char} (mem : x ∈ c.text.toList) : x = ' ' ∨ isPlain x = true := by
  rw [toList_text] at mem
  obtain blank | ⟨w, there, mem⟩ := Text.mem_intercalate mem
  · exact .inl (List.mem_singleton.1 blank)
  · exact .inr ((words_plain h w there).letters x mem)

theorem slash_notMem_text : '/' ∉ c.text.toList := by
  intro mem
  obtain blank | plain := mem_text h mem
  · cases blank
  · exact absurd plain (by decide)

theorem endsLine_text : ∀ x ∈ c.text.toList, endsLine x = false := by
  intro x mem
  obtain rfl | plain := mem_text h mem
  · decide
  · exact isPlain_endsLine plain

end Allowed

end Command

end HackPlatform.Vm
