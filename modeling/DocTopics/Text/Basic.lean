import DocTopics.Text.Chars

/-!
# Texts

The operations of `Chars` on strings, and the operations that put texts together again.
-/

namespace DocTopics.Text

/-- Every character is white space; the empty text is blank. -/
def blank (s : String) : Bool :=
  Chars.blank s.toList

/-- Removes leading white space. -/
def trimStart (s : String) : String :=
  String.ofList (Chars.trimStart s.toList)

/-- Removes trailing white space. -/
def trimEnd (s : String) : String :=
  String.ofList (Chars.trimEnd s.toList)

/-- Removes white space from both ends. -/
def trim (s : String) : String :=
  String.ofList (Chars.trim s.toList)

/-- Removes characters of a class from both ends. -/
def strip (p : Char → Bool) (s : String) : String :=
  String.ofList (Chars.strip p s.toList)

/-- The pieces between the occurrences of `sep`, empty pieces included. -/
def splitOn (sep : Char) (s : String) : List String :=
  (Chars.pieces (· == sep) s.toList).map String.ofList

/-- The maximal runs of non-white characters, in order. -/
def words (s : String) : List String :=
  (Chars.words s.toList).map String.ofList

/-- The lines of a text. -/
def lines (s : String) : List String :=
  (Chars.lines s.toList).map String.ofList

/-- The parts before and after the first character of a class, if there is one. -/
def cutAt (sep : Char → Bool) (s : String) : Option (String × String) :=
  (Chars.cutAt sep s.toList).map fun (a, b) => (String.ofList a, String.ofList b)

theorem cutAt_eq_some_iff {sep : Char → Bool} {s a b : String} :
    cutAt sep s = some (a, b) ↔
      ∃ c, sep c = true ∧ (∀ d ∈ a.toList, sep d = false) ∧
        s.toList = a.toList ++ c :: b.toList := by
  rw [cutAt, Option.map_eq_some_iff, ← Chars.cutAt_eq_some_iff]
  constructor
  · rintro ⟨⟨front, back⟩, hcut, heq⟩
    cases heq
    rwa [String.toList_ofList, String.toList_ofList]
  · intro hcut
    exact ⟨(a.toList, b.toList), hcut, by simp⟩

/-- What follows the literal `lit` at the start of a text, if the text starts with it. -/
def past (lit s : String) : Option String :=
  (Chars.past lit.toList s.toList).map String.ofList

/-- `part` stands somewhere in the text. -/
def occurs (part s : String) : Bool :=
  Chars.occurs part.toList s.toList

/-- The texts in order with `sep` between neighbours. -/
def join (sep : String) : List String → String
  | [] => ""
  | [s] => s
  | s :: t :: rest => s ++ sep ++ join sep (t :: rest)

/-- The texts joined line by line. -/
def joinLines (ls : List String) : String :=
  join "\n" ls

/-- White space is collapsed to single blanks and removed at the ends. -/
def collapse (s : String) : String :=
  join " " (words s)

/-- The text, unless it is empty. -/
def nonempty (s : String) : Option String :=
  if s = "" then none else some s

end DocTopics.Text
