import Interchange.Text.Blank

/-!
# Lines of text

A text is cut into lines at its line feeds.  A carriage return before a line feed belongs to neither
line, and what follows the last line feed is a line as well; so a text that ends with a line feed
has a last line that is empty.  Blank lines show nothing.
-/

namespace Interchange.Text

variable {cs line rest : List Char}

/-- A line that a line feed ended, without the carriage return before it. -/
def chomp (line : List Char) : List Char :=
  if line.getLast? = some '\r' then line.dropLast else line

/-- The lines of a text. -/
def lines (cs : List Char) : List (List Char) :=
  (cs.splitOn '\n').dropLast.map chomp ++ (cs.splitOn '\n').getLast?.toList

/-- The lines of a text that are not blank. -/
def shownLines (cs : List Char) : List (List Char) :=
  (lines cs).filter fun line ↦ !allBlank line

theorem lines_of_notMem (h : '\n' ∉ cs) : lines cs = [cs] := by
  rw [lines, List.splitOn_eq_singleton h]
  rfl

theorem lines_append (h : '\n' ∉ line) (rest : List Char) :
    lines (line ++ '\n' :: rest) = chomp line :: lines rest := by
  have hrest := List.splitOn_ne_nil '\n' rest
  rw [lines, List.splitOn_append_cons_self_of_not_mem h, List.dropLast_cons_of_ne_nil hrest,
    List.getLast?_cons_of_ne_nil hrest]
  rfl

theorem shownLines_of_notMem (h : '\n' ∉ cs) :
    shownLines cs = if allBlank cs then [] else [cs] := by
  rw [shownLines, lines_of_notMem h]
  cases hblank : allBlank cs <;> simp [hblank]

theorem shownLines_append (h : '\n' ∉ line) (rest : List Char) :
    shownLines (line ++ '\n' :: rest) =
      if allBlank (chomp line) then shownLines rest else chomp line :: shownLines rest := by
  rw [shownLines, lines_append h]
  cases hblank : allBlank (chomp line) <;> simp [hblank, shownLines]

@[simp] theorem shownLines_nil : shownLines [] = [] := rfl

/-- A carriage return goes with the line feed after it, and the last line needs no line feed. -/
example : lines "a\r\n\r\nb\rc\n\nd\r".toList =
    ["a".toList, [], "b\rc".toList, [], "d\r".toList] := by decide

end Interchange.Text
