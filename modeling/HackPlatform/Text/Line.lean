import HackPlatform.Text.Blank

/-!
# Lines and comments

Both source languages are read line by line, and in both `//` starts a comment that runs to the
end of its line. Lines are numbered from one, and a line keeps its number when others are dropped.
-/

namespace HackPlatform.Text

/-- A line that a line feed ended, without the carriage return directly before it. -/
def dropReturn (line : List Char) : List Char :=
  if line.getLast? = some '\r' then line.dropLast else line

/-- The lines of a text. A line feed ends a line, together with a carriage return directly before
it; a last line needs no line feed, and then keeps its carriage return. -/
def lines (s : List Char) : List (List Char) :=
  let parts := splitAt (· == '\n') s
  let last := parts.getLastD []
  parts.dropLast.map dropReturn ++ (if last.isEmpty then [] else [last])

/-- The lines of a text with their numbers, counted from one. -/
def numberedLines (s : List Char) : List (Nat × List Char) :=
  ((lines s).zipIdx 1).map fun p => (p.2, p.1)

/-- The part of a line before its first `//`. -/
def beforeComment (line : List Char) : List Char :=
  go [] line
where
  /-- Moves characters to `kept`, newest first, until a comment starts. -/
  go (kept : List Char) : List Char → List Char
    | [] => kept.reverse
    | '/' :: '/' :: _ => kept.reverse
    | c :: rest => go (c :: kept) rest

end HackPlatform.Text
