/-!
# Stable sorting

Lists are sorted by insertion. Items that the order does not tell apart keep their relative order.
-/

namespace DocTopics

/-- Puts an item in front of the first item that is not strictly before it. -/
def insertBy (before : α → α → Bool) (x : α) : List α → List α
  | [] => [x]
  | y :: ys => if before y x then y :: insertBy before x ys else x :: y :: ys

/-- The list in ascending order for a strict order `before`; the sort is stable. -/
def sortBy (before : α → α → Bool) : List α → List α
  | [] => []
  | x :: xs => insertBy before x (sortBy before xs)

theorem perm_insertBy (before : α → α → Bool) (x : α) (xs : List α) :
    (insertBy before x xs).Perm (x :: xs) := by
  induction xs with
  | nil => exact .refl _
  | cons y ys ih =>
    simp only [insertBy]
    split
    · exact (ih.cons y).trans (.swap x y ys)
    · exact .refl _

/-- Sorting neither loses nor adds items. -/
theorem perm_sortBy (before : α → α → Bool) (xs : List α) : (sortBy before xs).Perm xs := by
  induction xs with
  | nil => exact .refl _
  | cons x xs ih => exact (perm_insertBy before x _).trans (ih.cons x)

@[simp]
theorem mem_sortBy {before : α → α → Bool} {xs : List α} {x : α} : x ∈ sortBy before xs ↔ x ∈ xs :=
  (perm_sortBy before xs).mem_iff

/-- The strings in ascending order of code points. -/
def sortStrings (xs : List String) : List String :=
  sortBy (fun a b => decide (a < b)) xs

end DocTopics
