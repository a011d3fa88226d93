/-!
# Cutting text at separators

Every grammar of this library cuts a line at single characters: at line feeds, at blanks, at the
signs of an instruction or an option.
-/

namespace HackPlatform.Text

/-- The pieces between the characters that satisfy `p`: one more than there are such characters. -/
def splitAt (p : Char → Bool) (s : List Char) : List (List Char) :=
  s.foldr (fun c parts => if p c then [] :: parts else (c :: parts.headD []) :: parts.tail) [[]]

/-- The text before and after the first occurrence of a character, if it occurs. -/
def splitOnce? (c : Char) (s : List Char) : Option (List Char × List Char) :=
  match s.dropWhile fun x => x != c with
  | [] => none
  | _ :: rest => some (s.takeWhile (fun x => x != c), rest)

@[simp] theorem splitAt_nil (p : Char → Bool) : splitAt p [] = [[]] := rfl

theorem splitAt_cons (p : Char → Bool) (c : Char) (s : List Char) :
    splitAt p (c :: s) =
      if p c then [] :: splitAt p s else (c :: (splitAt p s).headD []) :: (splitAt p s).tail := rfl

/-- There is always at least one piece. -/
theorem splitAt_ne_nil (p : Char → Bool) (s : List Char) : splitAt p s ≠ [] := by
  cases s with
  | nil => simp
  | cons c s => rw [splitAt_cons]; split <;> simp

end HackPlatform.Text
