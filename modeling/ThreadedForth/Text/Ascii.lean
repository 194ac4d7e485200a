/-
  Character classes of source text.

  Source lines are ASCII.  Tokens are divided by five blank characters
  (`isBlank`), and names are compared without regard to the case of the ASCII
  letters (`foldCase`).

  * `foldCase_foldCase`: folding a folded text changes nothing.
-/
namespace ThreadedForth

/-- The characters that divide tokens: space, tab, line feed, form feed and carriage return. -/
def isBlank (c : Char) : Bool :=
  c == ' ' || c == '\t' || c == '\n' || c == '\x0c' || c == '\r'

/-- The characters of the ASCII range. -/
def isAscii (c : Char) : Bool :=
  c.toNat < 128

/-- A text with its ASCII letters in lower case; every other character stays as it is. -/
def foldCase (s : String) : String :=
  String.ofList (s.toList.map Char.toLower)

theorem toLower_toLower (c : Char) : c.toLower.toLower = c.toLower := by
  unfold Char.toLower
  grind

@[simp] theorem foldCase_foldCase (s : String) : foldCase (foldCase s) = foldCase s := by
  simp only [foldCase, String.toList_ofList, List.map_map, Function.comp_def, toLower_toLower]

end ThreadedForth
