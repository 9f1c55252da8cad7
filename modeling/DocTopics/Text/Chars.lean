import DocTopics.Text.Blank

/-!
# Character lists

Texts are taken apart as lists of characters. This module holds the cuts that every reader of the
library is made of: trimming, splitting into pieces, words and lines, and reading past a literal.

## Main definitions

- `Chars.trimStart`, `Chars.trimEnd`, `Chars.trim` — removal of surrounding white space
- `Chars.pieces` — the pieces between the characters of a class
- `Chars.words` — the maximal runs of non-white characters
- `Chars.lines` — the lines of a text
- `Chars.cutAt` — the parts before and after the first occurrence of a character
- `Chars.past` — what follows a literal at the start
-/

namespace DocTopics.Chars

/-- Every character is white space; the empty list is blank. -/
def blank (cs : List Char) : Bool :=
  cs.all isBlank

/-- Removes leading white space. -/
def trimStart (cs : List Char) : List Char :=
  cs.dropWhile isBlank

/-- Removes from the end the longest run of characters of a class. -/
def dropEndWhile (p : Char → Bool) (cs : List Char) : List Char :=
  (cs.reverse.dropWhile p).reverse

/-- Removes trailing white space. -/
def trimEnd (cs : List Char) : List Char :=
  dropEndWhile isBlank cs

/-- Removes characters of a class from both ends. -/
def strip (p : Char → Bool) (cs : List Char) : List Char :=
  dropEndWhile p (cs.dropWhile p)

/-- Removes white space from both ends. -/
def trim (cs : List Char) : List Char :=
  strip isBlank cs

/-- Puts a character in front of the first piece. -/
def consHead (c : Char) : List (List Char) → List (List Char)
  | [] => [[c]]
  | p :: ps => (c :: p) :: ps

/-- The pieces between the characters of a class, empty pieces included: one more than there are
separators. -/
def pieces (sep : Char → Bool) : List Char → List (List Char)
  | [] => [[]]
  | c :: cs => if sep c then [] :: pieces sep cs else consHead c (pieces sep cs)

theorem pieces_ne_nil (sep : Char → Bool) (cs : List Char) : pieces sep cs ≠ [] := by
  cases cs with
  | nil => simp [pieces]
  | cons c cs =>
    simp only [pieces]
    split
    · simp
    · cases pieces sep cs <;> simp [consHead]

theorem pieces_of_forall {sep : Char → Bool} {cs : List Char} (h : ∀ c ∈ cs, sep c = false) :
    pieces sep cs = [cs] := by
  induction cs with
  | nil => rfl
  | cons c cs ih =>
    simp only [List.mem_cons, forall_eq_or_imp] at h
    simp [pieces, h.1, ih h.2, consHead]

theorem pieces_append {sep : Char → Bool} {a : List Char} {s : Char} (b : List Char)
    (ha : ∀ c ∈ a, sep c = false) (hs : sep s = true) :
    pieces sep (a ++ s :: b) = a :: pieces sep b := by
  induction a with
  | nil => simp [pieces, hs]
  | cons c cs ih =>
    simp only [List.mem_cons, forall_eq_or_imp] at ha
    simp [pieces, ha.1, ih ha.2, consHead]

/-- The maximal runs of non-white characters, in order. -/
def words (cs : List Char) : List (List Char) :=
  (pieces isBlank cs).filter (!·.isEmpty)

/-- The lines of a text. A line ends at a line feed, and one carriage return before it belongs to
the line end; the text after the last line feed is a line unless it is empty. -/
def lines : List Char → List (List Char)
  | [] => []
  | '\n' :: cs => [] :: lines cs
  | '\r' :: '\n' :: cs => [] :: lines cs
  | c :: cs => consHead c (lines cs)

/-- The parts before and after the first occurrence of `sep`, if there is one. -/
def cutAt (sep : Char → Bool) : List Char → Option (List Char × List Char)
  | [] => none
  | c :: cs => if sep c then some ([], cs) else (cutAt sep cs).map fun (a, b) => (c :: a, b)

theorem cutAt_append {sep : Char → Bool} {a b : List Char} {s : Char}
    (ha : ∀ c ∈ a, sep c = false) (hs : sep s = true) : cutAt sep (a ++ s :: b) = some (a, b) := by
  induction a with
  | nil => simp [cutAt, hs]
  | cons c cs ih =>
    simp only [List.mem_cons, forall_eq_or_imp] at ha
    simp [cutAt, ha.1, ih ha.2]

/-- A separator that is one character is missed by the lists that do not hold it. -/
theorem forall_beq_eq_false_iff {s : Char} {cs : List Char} :
    (∀ c ∈ cs, (c == s) = false) ↔ s ∉ cs := by
  simp only [beq_eq_false_iff_ne, ne_eq, List.forall_mem_ne']

theorem cutAt_eq_none_iff {sep : Char → Bool} {cs : List Char} :
    cutAt sep cs = none ↔ ∀ c ∈ cs, sep c = false := by
  induction cs with
  | nil => simp [cutAt]
  | cons c cs ih => by_cases h : sep c <;> simp [cutAt, h, ih]

theorem cutAt_eq_some_iff {sep : Char → Bool} {cs a b : List Char} :
    cutAt sep cs = some (a, b) ↔
      ∃ s, sep s = true ∧ (∀ c ∈ a, sep c = false) ∧ cs = a ++ s :: b := by
  constructor
  · intro h
    induction cs generalizing a with
    | nil => cases h
    | cons c cs ih =>
      rw [cutAt] at h
      split at h
      · rename_i hc
        cases h
        exact ⟨c, hc, by simp, rfl⟩
      · rename_i hc
        obtain ⟨⟨a', b'⟩, hcut, heq⟩ := Option.map_eq_some_iff.1 h
        cases heq
        obtain ⟨s, hs, ha, rfl⟩ := ih hcut
        exact ⟨s, hs, List.forall_mem_cons.2 ⟨by simpa using hc, ha⟩, rfl⟩
  · rintro ⟨s, hs, ha, rfl⟩
    exact cutAt_append ha hs

/-- What follows the literal `lit` at the start of a list, if the list starts with it. -/
def past : (lit : List Char) → List Char → Option (List Char)
  | [], cs => some cs
  | _ :: _, [] => none
  | l :: lit, c :: cs => if l = c then past lit cs else none

/-- A list starts with a literal exactly when reading past it succeeds. -/
theorem past_eq_some_iff {lit cs rest : List Char} :
    past lit cs = some rest ↔ cs = lit ++ rest := by
  fun_induction past lit cs with
  | case1 cs => simp [eq_comm]
  | case2 => simp
  | case3 lit c cs ih => simp [ih]
  | case4 l lit c cs h => simp; grind

/-- The first position at which a reader succeeds, from left to right. -/
def firstMatch (read : List Char → Option α) : List Char → Option α
  | [] => read []
  | c :: cs => (read (c :: cs)).orElse fun _ => firstMatch read cs

/-- `part` stands somewhere in the list. -/
def occurs (part : List Char) (cs : List Char) : Bool :=
  (firstMatch (past part) cs).isSome

end DocTopics.Chars
