import HackPlatform.Proofs.Text.Numeral
import HackPlatform.Proofs.Vm.Accepted

/-!
# What written names tell apart

A written name shows what it stands for: the reserved character says how many parts a label has,
and the digits at the end say whether a label was made or a cell is static. So names that differ
are written differently, as far as they label places of a program.
-/

namespace HackPlatform.Vm

open Asm (isName isName_iff isNameChar)
open Text (isDigit_of_mem_repr repr_injective)

/-- Two texts that are equal up to the first character outside `p` have the same parts. -/
theorem append_cons_inj {p : Char → Prop} {a b a' b' : List Char} {x y : Char}
    (ha : ∀ c ∈ a, p c) (hx : ¬p x) (ha' : ∀ c ∈ a', p c) (hy : ¬p y)
    (h : a ++ x :: b = a' ++ y :: b') : a = a' ∧ x = y ∧ b = b' := by
  induction a generalizing a' with
  | nil =>
    cases a' with
    | nil =>
      cases h
      exact ⟨rfl, rfl, rfl⟩
    | cons c a' =>
      cases h
      exact absurd (ha' x List.mem_cons_self) hx
  | cons c a ih =>
    rw [List.forall_mem_cons] at ha
    cases a' with
    | nil =>
      cases h
      exact absurd ha.1 hy
    | cons d a' =>
      rw [List.forall_mem_cons] at ha'
      injection h with head tail
      obtain ⟨rfl, same⟩ := ih ha.2 ha'.2 tail
      exact ⟨by rw [head], same⟩

/-- The same from the end. -/
theorem append_cons_inj_last {p : Char → Prop} {a b a' b' : List Char} {x y : Char}
    (hb : ∀ c ∈ b, p c) (hx : ¬p x) (hb' : ∀ c ∈ b', p c) (hy : ¬p y)
    (h : a ++ x :: b = a' ++ y :: b') : a = a' ∧ x = y ∧ b = b' := by
  have turned := congrArg List.reverse h
  simp only [List.reverse_append, List.reverse_cons, List.append_assoc, List.singleton_append]
    at turned
  obtain ⟨upper, sign, lower⟩ := append_cons_inj (p := p) (by simpa using hb) hx
    (by simpa using hb') hy turned
  exact ⟨List.reverse_inj.1 lower, sign, List.reverse_inj.1 upper⟩

namespace Symbol

theorem toList_static (unit : String) (index : UInt16) :
    (static unit index).text.toList = unit.toList ++ '.' :: index.toNat.repr.toList := by
  simp [text, Text.decimal]

theorem toList_inFunction (f name : String) :
    (inFunction f name).text.toList = f.toList ++ '$' :: name.toList := by
  simp [text]

theorem toList_inUnit (unit name : String) :
    (inUnit unit name).text.toList = '$' :: (unit.toList ++ '$' :: name.toList) := by
  simp [text]

theorem toList_made (mark : Mark) (number : Nat) :
    (made mark number).text.toList = '$' :: (mark.text.toList ++ '_' :: number.repr.toList) := by
  simp [text]

end Symbol

/-- The callee of a mark, if it has one, is a name of the source. -/
def Mark.Sound : Mark → Prop
  | .resume callee => UserName callee
  | _ => True

/-- The text of a mark lacks the reserved character and is made of name characters. -/
theorem Mark.text_sound {mark : Mark} (h : mark.Sound) :
    '$' ∉ mark.text.toList ∧ ∀ c ∈ mark.text.toList, isNameChar c = true := by
  cases mark with
  | holds r | done r =>
    constructor
    · cases r <;> decide
    · apply List.all_eq_true.1
      cases r <;> decide
  | clear => exact ⟨by decide, List.all_eq_true.1 (by decide)⟩
  | resume callee =>
    have shape : (Mark.resume callee).text.toList = "RETURN_".toList ++ callee.toList := by
      simp [Mark.text]
    rw [shape, List.mem_append, not_or, List.forall_mem_append]
    exact ⟨⟨by decide, h.2⟩, List.all_eq_true.1 (by decide), (isName_iff.1 h.1).1⟩

theorem Mark.text_injective {a b : Mark} (h : a.text.toList = b.text.toList) : a = b := by
  cases a with
  | resume callee =>
    cases b with
    | resume other =>
      simp only [text, String.toList_append] at h
      rw [String.toList_inj.1 (List.append_cancel_left h)]
    | holds r => cases r <;> simp [text, Relation.tag] at h
    | done r => cases r <;> simp [text, Relation.tag] at h
    | clear => simp [text] at h
  | holds r => cases r <;> cases b with
    | resume callee => simp [text, Relation.tag] at h
    | holds r => cases r <;> first | rfl | exact absurd h (by decide)
    | done r => cases r <;> exact absurd h (by decide)
    | clear => exact absurd h (by decide)
  | done r => cases r <;> cases b with
    | resume callee => simp [text, Relation.tag] at h
    | holds r => cases r <;> exact absurd h (by decide)
    | done r => cases r <;> first | rfl | exact absurd h (by decide)
    | clear => exact absurd h (by decide)
  | clear =>
    cases b with
    | resume callee => simp [text] at h
    | holds r => cases r <;> exact absurd h (by decide)
    | done r => cases r <;> exact absurd h (by decide)
    | clear => rfl

namespace Symbol

/-- A made label is a name. -/
theorem isName_made {mark : Mark} (h : mark.Sound) (number : Nat) :
    isName (made mark number).text.toList = true := by
  have digits : ∀ c ∈ number.repr.toList, isNameChar c = true := fun c hc => by
    simp [isNameChar, Char.isAlphanum, isDigit_of_mem_repr hc]
  rw [isName_iff, toList_made]
  refine ⟨?_, '$', rfl, by decide⟩
  rw [List.forall_mem_cons, List.forall_mem_append, List.forall_mem_cons]
  exact ⟨by decide, (Mark.text_sound h).2, by decide, digits⟩

/-- A label whose parts are names of the source, where the program has them so. -/
def Label : Symbol → Prop
  | register _ | static .. => False
  | function name => UserName name
  | inFunction f name => UserName f ∧ UserName name
  | inUnit _ name => UserName name
  | made mark _ => mark.Sound

/-- The number of a kind of label. -/
def form : Symbol → Nat
  | register _ | static .. | function _ => 0
  | inFunction .. => 1
  | made .. => 2
  | inUnit .. => 3

/-- The kind of label that a text shows by where the reserved character stands. -/
def shape (s : List Char) : Nat :=
  if '$' ∉ s then 0 else if s.head? ≠ some '$' then 1 else if '$' ∉ s.tail then 2 else 3

theorem shape_function {name : String} (h : UserName name) : shape (function name).text.toList = 0 :=
  if_pos h.2

theorem shape_inFunction {f : String} (h : UserName f) (name : String) :
    shape (inFunction f name).text.toList = 1 := by
  obtain ⟨c, first, -⟩ := (isName_iff.1 h.1).2
  have other : c ≠ '$' := by
    rintro rfl
    exact h.2 (List.mem_of_mem_head? first)
  rw [toList_inFunction, shape, if_neg (by simp), if_pos]
  rw [List.head?_append, first]
  simpa using other

theorem digits_lack_reserved (n : Nat) : '$' ∉ n.repr.toList := by
  intro mem
  exact absurd (isDigit_of_mem_repr mem) (by decide)

/-- A made label holds the reserved character in front only. -/
theorem made_tail_lacks_reserved {mark : Mark} (h : mark.Sound) (number : Nat) :
    '$' ∉ mark.text.toList ++ '_' :: number.repr.toList := by
  rw [List.mem_append, List.mem_cons]
  rintro (mem | mem | mem)
  · exact (Mark.text_sound h).1 mem
  · cases mem
  · exact digits_lack_reserved number mem

theorem shape_made {mark : Mark} (h : mark.Sound) (number : Nat) :
    shape (made mark number).text.toList = 2 := by
  rw [toList_made, shape, if_neg (by simp), if_neg (by simp), List.tail_cons,
    if_pos (made_tail_lacks_reserved h number)]

theorem shape_inUnit (unit name : String) : shape (inUnit unit name).text.toList = 3 := by
  rw [toList_inUnit, shape, if_neg (by simp), if_neg (by simp), List.tail_cons, if_neg (by simp)]

theorem shape_text {a : Symbol} (h : a.Label) : shape a.text.toList = a.form := by
  cases a with
  | register | static => cases h
  | function name => exact shape_function h
  | inFunction f name => exact shape_inFunction h.1 name
  | inUnit unit name => exact shape_inUnit unit name
  | made mark number => exact shape_made h number

theorem inFunction_injective {f g name other : String} (hf : UserName f) (hg : UserName g)
    (h : (inFunction f name).text = (inFunction g other).text) :
    inFunction f name = inFunction g other := by
  rw [← String.toList_inj, toList_inFunction, toList_inFunction] at h
  obtain ⟨same, -, rest⟩ := append_cons_inj (p := (· ≠ '$'))
    (fun c hc e => hf.2 (e ▸ hc)) (by simp) (fun c hc e => hg.2 (e ▸ hc)) (by simp) h
  rw [String.toList_inj.1 same, String.toList_inj.1 rest]

theorem inUnit_injective {unit unit' name other : String} (hn : UserName name)
    (ho : UserName other) (h : (inUnit unit name).text = (inUnit unit' other).text) :
    inUnit unit name = inUnit unit' other := by
  rw [← String.toList_inj, toList_inUnit, toList_inUnit] at h
  obtain ⟨same, -, rest⟩ := append_cons_inj_last (p := (· ≠ '$'))
    (fun c hc e => hn.2 (e ▸ hc)) (by simp) (fun c hc e => ho.2 (e ▸ hc)) (by simp)
    (List.cons_inj_right _ |>.1 h)
  rw [String.toList_inj.1 same, String.toList_inj.1 rest]

theorem made_injective {mark mark' : Mark} {n n' : Nat}
    (h : (made mark n).text = (made mark' n').text) : made mark n = made mark' n' := by
  rw [← String.toList_inj, toList_made, toList_made] at h
  obtain ⟨same, -, rest⟩ := append_cons_inj_last (p := (Char.isDigit · = true))
    (fun _ => isDigit_of_mem_repr) (by decide) (fun _ => isDigit_of_mem_repr) (by decide)
    (List.cons_inj_right _ |>.1 h)
  rw [Mark.text_injective same, repr_injective rest]

/-- Labels that are written alike are the same. -/
theorem text_injective {a b : Symbol} (ha : a.Label) (hb : b.Label) (h : a.text = b.text) :
    a = b := by
  -- Texts of different kinds differ in shape, so only the diagonal cases are left.
  have forms : a.form = b.form := by
    rw [← shape_text ha, ← shape_text hb, h]
  cases a with
  | register | static => cases ha
  | function name =>
    cases b with
    | register | static => cases hb
    | function other => exact congrArg function h
    | inFunction | inUnit | made => cases forms
  | inFunction f name =>
    cases b with
    | register | static => cases hb
    | inFunction g other => exact inFunction_injective ha.1 hb.1 h
    | function | inUnit | made => cases forms
  | inUnit unit name =>
    cases b with
    | register | static => cases hb
    | inUnit unit' other => exact inUnit_injective ha hb h
    | function | inFunction | made => cases forms
  | made mark n =>
    cases b with
    | register | static => cases hb
    | made mark' n' => exact made_injective h
    | function | inFunction | inUnit => cases forms

/-! ## Other names -/

/-- Static cells are told apart by unit and index. -/
theorem static_injective {unit unit' : String} {index index' : UInt16}
    (h : (static unit index).text = (static unit' index').text) :
    unit = unit' ∧ index = index' := by
  rw [← String.toList_inj, toList_static, toList_static] at h
  obtain ⟨same, -, rest⟩ := append_cons_inj_last (p := (Char.isDigit · = true))
    (fun _ => isDigit_of_mem_repr) (by decide) (fun _ => isDigit_of_mem_repr) (by decide) h
  exact ⟨String.toList_inj.1 same, UInt16.toNat_inj.1 (repr_injective rest)⟩

/-- A static cell's name ends like no made label. -/
theorem static_ne_made (unit : String) (index : UInt16) (mark : Mark) (number : Nat) :
    (static unit index).text ≠ (made mark number).text := by
  intro h
  rw [← String.toList_inj, toList_static, toList_made, ← List.cons_append] at h
  obtain ⟨-, sign, -⟩ := append_cons_inj_last (p := (Char.isDigit · = true))
    (fun _ => isDigit_of_mem_repr) (by decide) (fun _ => isDigit_of_mem_repr) (by decide) h
  cases sign

/-- A name of a translated program: a register, a static cell or a label. -/
def Sound : Symbol → Prop
  | register _ | static .. => True
  | a => a.Label

theorem register_lacks_reserved (r : Register) : '$' ∉ (register r).text.toList := by
  cases r <;> decide

/-- Only a made label is written like it. -/
theorem eq_made {a : Symbol} {mark : Mark} {number : Nat} (ha : a.Sound) (hm : mark.Sound)
    (h : a.text = (made mark number).text) : a = made mark number := by
  cases a with
  | register r =>
    have mem : '$' ∈ (register r).text.toList := by
      rw [h, toList_made]
      exact List.mem_cons_self
    exact absurd mem (register_lacks_reserved r)
  | static unit index => exact absurd h (static_ne_made unit index mark number)
  | function | inFunction | inUnit | made => exact text_injective ha hm h

end Symbol

end HackPlatform.Vm
