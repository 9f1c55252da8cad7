import DocTopics.Topic.Basic
import Mathlib.Data.List.Basic
import Mathlib.Data.List.Induction

/-!
# Lists that keep first occurrences

Merged topics list a name once, where it came up first. The two folds that do so are one operation:
the list at hand stays as it is, repetitions included, and of the later items the first of every key
that is not in it follows. The operation is associative.

## Main definitions

- `withNew` — a list followed by the first item of each new key

## Main statements

- `foldl_eq_withNew` — the fold that appends an item unless its key is taken
- `withNew_assoc` — three lists can be put together from either end
- `pairwise_idxOf_extendUnique` — what is kept stands in the order of its first occurrences
-/

namespace DocTopics

variable {α κ : Type} [BEq κ] (key : α → κ)

/-- The list, followed by the first item of each key that no item of it has, in order. -/
def withNew (list items : List α) : List α :=
  list ++ (items.filter fun x => !list.any fun y => key y == key x).eraseDupsBy
    fun x y => key x == key y

@[simp]
theorem withNew_nil (list : List α) : withNew key list [] = list := by
  simp [withNew]

theorem withNew_self_nil [BEq α] (items : List α) :
    withNew (fun x => x) [] items = items.eraseDups := by
  simp only [withNew, List.any_nil, Bool.not_false, List.filter_true, List.nil_append]
  rfl

section Lawful

variable [LawfulBEq κ]

/-- The first of the items is taken or left, and the others see which. -/
theorem withNew_cons (list : List α) (x : α) (items : List α) :
    withNew key list (x :: items) =
      withNew key (if list.any fun y => key y == key x then list else list ++ [x]) items := by
  cases htaken : list.any fun y => key y == key x with
  | true => simp [withNew, htaken]
  | false =>
    have hfilter : ((items.filter fun z => !list.any fun y => key y == key z).filter
        fun z => decide ((key z == key x) = false)) =
          items.filter fun z => !(list ++ [x]).any fun y => key y == key z := by
      rw [List.filter_filter]
      refine List.filter_congr fun z _ => ?_
      rw [List.any_append, List.any_cons, List.any_nil, Bool.or_false, Bool.not_or,
        Bool.and_comm, BEq.comm (a := key x)]
      cases key z == key x <;> rfl
    simp only [Bool.false_eq_true, if_false]
    rw [withNew, List.filter_cons_of_pos (by rw [htaken]; rfl), List.eraseDupsBy_cons, hfilter,
      withNew, List.append_assoc, List.singleton_append]

theorem foldl_eq_withNew (list items : List α) :
    items.foldl (fun acc x => if acc.any fun y => key y == key x then acc else acc ++ [x]) list =
      withNew key list items := by
  induction items generalizing list with
  | nil => exact (withNew_nil key list).symm
  | cons x items ih => rw [List.foldl_cons, ih, withNew_cons]

theorem withNew_append (list xs ys : List α) :
    withNew key list (xs ++ ys) = withNew key (withNew key list xs) ys := by
  rw [← foldl_eq_withNew, ← foldl_eq_withNew, ← foldl_eq_withNew, List.foldl_append]

theorem any_withNew (list items : List α) (k : κ) :
    ((withNew key list items).any fun y => key y == k) =
      ((list.any fun y => key y == k) || items.any fun y => key y == k) := by
  induction items generalizing list with
  | nil => simp
  | cons x items ih =>
    rw [withNew_cons, ih, List.any_cons]
    split
    · rename_i htaken
      -- an item that is left out has a key that the list has
      cases hk : key x == k with
      | false => rw [Bool.false_or]
      | true => rw [← eq_of_beq hk, htaken, Bool.true_or, Bool.true_or]
    · rw [List.any_append, List.any_cons, List.any_nil, Bool.or_false, Bool.or_assoc]

/-- What was left out of the items would be left out of the whole, too. -/
theorem withNew_withNew (list xs ys : List α) :
    withNew key list (withNew key xs ys) = withNew key list (xs ++ ys) := by
  induction ys generalizing xs with
  | nil => rw [withNew_nil, List.append_nil]
  | cons y ys ih =>
    rw [withNew_cons, ih]
    split
    · rename_i htaken
      have hseen : ((withNew key list xs).any fun z => key z == key y) = true := by
        rw [any_withNew, htaken, Bool.or_true]
      rw [withNew_append, withNew_append key list xs (y :: ys), withNew_cons, if_pos hseen]
    · rw [List.append_assoc, List.singleton_append]

theorem withNew_assoc (xs ys zs : List α) :
    withNew key (withNew key xs ys) zs = withNew key xs (withNew key ys zs) := by
  rw [← withNew_append, withNew_withNew]

end Lawful

/-! ### The two folds -/

theorem Param.extendByName_eq (entries later : List Param) :
    Param.extendByName entries later = withNew Param.name entries later :=
  foldl_eq_withNew Param.name entries later

theorem Param.extendByName_concat (entries later : List Param) (p : Param) :
    Param.extendByName entries (later ++ [p]) =
      if (Param.extendByName entries later).any (·.name == p.name) then
        Param.extendByName entries later
      else Param.extendByName entries later ++ [p] :=
  List.foldl_append

theorem Param.mem_of_mem_extendByName {entries later : List Param} {p : Param}
    (h : p ∈ Param.extendByName entries later) : p ∈ entries ∨ p ∈ later := by
  unfold extendByName at h
  induction later generalizing entries with
  | nil => exact .inl h
  | cons q later ih =>
    rw [List.foldl_cons] at h
    rcases ih h with hp | hp
    · split at hp
      · exact .inl hp
      · rcases List.mem_append.1 hp with hp | hp
        · exact .inl hp
        · exact .inr (List.mem_cons.2 (.inl (List.mem_singleton.1 hp)))
    · exact .inr (List.mem_cons_of_mem q hp)

theorem extendUnique_append [BEq α] (list xs ys : List α) :
    extendUnique list (xs ++ ys) = extendUnique (extendUnique list xs) ys :=
  List.foldl_append

theorem extendUnique_eq [BEq α] [LawfulBEq α] (list items : List α) :
    extendUnique list items = withNew (fun x => x) list items := by
  have hstep : (fun (acc : List α) x => if acc.contains x then acc else acc ++ [x]) =
      fun acc x => if acc.any fun y => y == x then acc else acc ++ [x] := by
    funext acc x
    rw [List.contains_eq_any_beq]
    simp only [BEq.comm (a := x)]
  rw [extendUnique, hstep, foldl_eq_withNew]

/-- The first occurrences of a list come in order. -/
theorem pairwise_idxOf_extendUnique [BEq α] [LawfulBEq α] (xs : List α) :
    (extendUnique [] xs).Pairwise fun a b => xs.idxOf a < xs.idxOf b := by
  induction xs using List.reverseRecOn with
  | nil => exact List.Pairwise.nil
  | append_singleton xs x ih =>
    have hmem : ∀ a ∈ extendUnique [] xs, a ∈ xs := fun a ha => by simpa using ha
    have hold : (extendUnique [] xs).Pairwise fun a b =>
        (xs ++ [x]).idxOf a < (xs ++ [x]).idxOf b := by
      refine ih.imp_of_mem fun {a b} ha hb hlt => ?_
      rwa [List.idxOf_append_of_mem (hmem a ha), List.idxOf_append_of_mem (hmem b hb)]
    have hstep : extendUnique [] (xs ++ [x]) =
        if (extendUnique [] xs).contains x then extendUnique [] xs
        else extendUnique [] xs ++ [x] := by
      rw [extendUnique, List.foldl_append]
      rfl
    rw [hstep]
    split
    · exact hold
    · rename_i hnew
      have hx : x ∉ xs := by simpa using hnew
      refine List.pairwise_append.2 ⟨hold, List.pairwise_singleton _ _, fun a ha b hb => ?_⟩
      rw [List.mem_singleton.1 hb, List.idxOf_append_of_mem (hmem a ha),
        List.idxOf_append_of_notMem hx]
      exact Nat.lt_add_right _ (List.idxOf_lt_length_of_mem (hmem a ha))

end DocTopics
