import DocTopics.Text.Basic
import Mathlib.Data.List.DropRight

/-!
# Trimmed texts

Trimming removes characters from the ends of a text only, and trimming twice is trimming once. A
text is left as it is exactly if neither of its ends is of the class that is removed.
-/

namespace DocTopics

theorem dropWhile_eq_self {α : Type} {p : α → Bool} {xs : List α}
    (h : ∀ x ∈ xs.head?, p x = false) : xs.dropWhile p = xs := by
  cases xs with
  | nil => rfl
  | cons x xs => exact List.dropWhile_cons_of_neg (by simp [h x rfl])

theorem rdropWhile_append_rtakeWhile {α : Type} (p : α → Bool) (xs : List α) :
    xs.rdropWhile p ++ xs.rtakeWhile p = xs := by
  rw [List.rdropWhile, List.rtakeWhile, ← List.reverse_append, List.takeWhile_append_dropWhile,
    List.reverse_reverse]

/-- What is dropped from both ends of a list is of the class. -/
theorem exists_eq_append_dropEnds {α : Type} (p : α → Bool) (xs : List α) :
    ∃ lead tail, xs = lead ++ (xs.dropWhile p).rdropWhile p ++ tail ∧ (∀ x ∈ lead, p x = true) ∧
      ∀ x ∈ tail, p x = true := by
  refine ⟨xs.takeWhile p, (xs.dropWhile p).rtakeWhile p, ?_, ?_, ?_⟩
  · rw [List.append_assoc, rdropWhile_append_rtakeWhile, List.takeWhile_append_dropWhile]
  · exact fun x hx => List.mem_takeWhile_imp hx
  · exact fun x hx => List.mem_rtakeWhile_imp hx

/-- What is left when the end of a list is dropped does not end in the class. -/
theorem getLast?_rdropWhile {α : Type} (p : α → Bool) (xs : List α) :
    ∀ x ∈ (xs.rdropWhile p).getLast?, p x = false := by
  intro x hx
  rw [List.rdropWhile, List.getLast?_reverse] at hx
  have hhead := List.head?_dropWhile_not p xs.reverse
  rw [Option.mem_def.1 hx] at hhead
  exact hhead

namespace Chars

/-- A class of characters tells its members from all others. -/
theorem ne_of_class {p : Char → Bool} {c d : Char} (hc : p c = true) (hd : p d = false) :
    c ≠ d := by
  rintro rfl
  rw [hc] at hd
  cases hd

theorem notMem_of_class {p : Char → Bool} {cs : List Char} (h : ∀ c ∈ cs, p c = true) {d : Char}
    (hd : p d = false) : d ∉ cs :=
  fun hmem => ne_of_class (h d hmem) hd rfl

/-- Nothing is trimmed from a text that does not end in white space. -/
theorem trimEnd_eq_self {cs : List Char} (h : ∀ c ∈ cs.getLast?, isBlank c = false) :
    trimEnd cs = cs := by
  rw [trimEnd, dropEndWhile, dropWhile_eq_self (by rwa [List.head?_reverse]), List.reverse_reverse]

theorem dropEndWhile_eq (p : Char → Bool) (cs : List Char) :
    dropEndWhile p cs = cs.rdropWhile p :=
  rfl

theorem getLast?_trimEnd (cs : List Char) : ∀ c ∈ (trimEnd cs).getLast?, isBlank c = false :=
  getLast?_rdropWhile isBlank cs

theorem blank_trimEnd (cs : List Char) : blank (trimEnd cs) = blank cs := by
  have htail : (cs.rtakeWhile isBlank).all isBlank = true :=
    List.all_eq_true.2 fun c hc => List.mem_rtakeWhile_imp hc
  conv_rhs => rw [blank, ← rdropWhile_append_rtakeWhile isBlank cs, List.all_append, htail]
  rw [Bool.and_true]
  rfl

theorem strip_subset (p : Char → Bool) (cs : List Char) : strip p cs ⊆ cs := by
  rw [strip, dropEndWhile_eq]
  exact List.Subset.trans (List.rdropWhile_prefix p _).subset (List.dropWhile_suffix p).subset

theorem strip_strip (p : Char → Bool) (cs : List Char) : strip p (strip p cs) = strip p cs := by
  have hstart : (strip p cs).dropWhile p = strip p cs := by
    refine dropWhile_eq_self fun c hc => ?_
    -- a text that is left starts as it did before its end was cut off
    obtain ⟨rest, hrest⟩ := List.head?_eq_some_iff.1 hc
    obtain ⟨more, hmore⟩ : strip p cs <+: cs.dropWhile p := List.rdropWhile_prefix p _
    rw [hrest, List.cons_append] at hmore
    have hne : cs.dropWhile p ≠ [] := by
      rw [← hmore]
      exact List.cons_ne_nil c _
    have hkeep := List.head_dropWhile_not p hne
    simpa only [← hmore, List.head_cons] using hkeep
  rw [strip, hstart, strip, dropEndWhile_eq, dropEndWhile_eq, List.rdropWhile_idempotent]

/-- Nothing is removed from a text with neither end in the class. -/
theorem strip_eq_self_iff {p : Char → Bool} {cs : List Char} :
    strip p cs = cs ↔ cs.head?.any p = false ∧ cs.getLast?.any p = false := by
  constructor
  · intro h
    have hstart : cs.dropWhile p = cs := by
      refine (List.dropWhile_suffix p).eq_of_length_le ?_
      calc cs.length = (strip p cs).length := by rw [h]
        _ ≤ (cs.dropWhile p).length := (List.rdropWhile_prefix p _).length_le
    have hend : cs.rdropWhile p = cs := by rwa [strip, hstart, dropEndWhile_eq] at h
    constructor
    · cases cs with
      | nil => rfl
      | cons c cs => simpa using List.dropWhile_eq_self_iff.1 hstart
    · rcases List.eq_nil_or_concat cs with rfl | ⟨cs, c, rfl⟩
      · rfl
      · simpa using List.rdropWhile_eq_self_iff.1 hend
  · rintro ⟨hhead, hlast⟩
    have hstart : cs.dropWhile p = cs := dropWhile_eq_self fun c hc => by simp_all
    have hend : cs.reverse.dropWhile p = cs.reverse :=
      dropWhile_eq_self fun c hc => by simp_all
    rw [strip, hstart, dropEndWhile, hend, List.reverse_reverse]

/-- What trimming removes is white space. -/
theorem exists_eq_append_trim (cs : List Char) :
    ∃ lead tail, cs = lead ++ trim cs ++ tail ∧ (∀ c ∈ lead, isBlank c = true) ∧
      ∀ c ∈ tail, isBlank c = true :=
  exists_eq_append_dropEnds isBlank cs

theorem trim_append_left {lead : List Char} (h : ∀ c ∈ lead, isBlank c = true) (cs : List Char) :
    trim (lead ++ cs) = trim cs := by
  rw [trim, strip, List.dropWhile_append_of_pos h]
  rfl

theorem trim_eq_nil_iff {cs : List Char} : trim cs = [] ↔ blank cs = true := by
  rw [trim, strip, dropEndWhile_eq, List.rdropWhile_eq_nil_iff, blank, List.all_eq_true]
  constructor
  · -- what is left starts with a character that is not white space
    intro h
    rw [← List.dropWhile_eq_nil_iff]
    by_contra hne
    have hhead := List.head_dropWhile_not isBlank hne
    rw [h _ (List.head_mem hne)] at hhead
    cases hhead
  · intro h c hc
    exact h c ((List.dropWhile_suffix isBlank).subset hc)

theorem trim_append_right (cs : List Char) {tail : List Char} (h : ∀ c ∈ tail, isBlank c = true) :
    trim (cs ++ tail) = trim cs := by
  by_cases hblank : blank cs = true
  · have hall : blank (cs ++ tail) = true := by
      rw [blank, List.all_append, ← blank, hblank, Bool.true_and]
      exact List.all_eq_true.2 h
    rw [trim_eq_nil_iff.2 hall, trim_eq_nil_iff.2 hblank]
  · have hstart : (cs.dropWhile isBlank).isEmpty = false := by
      rw [List.isEmpty_eq_false_iff]
      exact fun hnil => hblank (List.all_eq_true.2 (List.dropWhile_eq_nil_iff.1 hnil))
    have hend : ∀ c ∈ tail.reverse, isBlank c = true := fun c hc => h c (List.mem_reverse.1 hc)
    rw [trim, strip, List.dropWhile_append, hstart, if_neg (by decide), dropEndWhile,
      List.reverse_append, List.dropWhile_append_of_pos hend]
    rfl

end Chars

theorem Text.trim_eq_empty_iff {s : String} : Text.trim s = "" ↔ Text.blank s = true := by
  rw [Text.blank, ← Chars.trim_eq_nil_iff, Text.trim, ← String.toList_inj, String.toList_ofList]
  rfl

theorem Text.nonempty_trim_eq_some_iff {s text : String} :
    Text.nonempty (Text.trim s) = some text ↔ Text.blank s = false ∧ text = Text.trim s := by
  by_cases hblank : Text.blank s = true
  · rw [Text.trim_eq_empty_iff.2 hblank, hblank]
    simp [Text.nonempty]
  · have hne : Text.trim s ≠ "" := fun h => hblank (Text.trim_eq_empty_iff.1 h)
    rw [Text.nonempty, if_neg hne, Option.some_inj]
    simp [hblank, eq_comm]

theorem Text.trim_eq_self_iff {s : String} : Text.trim s = s ↔ Chars.trim s.toList = s.toList := by
  rw [Text.trim, ← String.toList_inj, String.toList_ofList]

theorem Text.trim_trim (s : String) : Text.trim (Text.trim s) = Text.trim s := by
  rw [Text.trim, Text.trim, String.toList_ofList, Chars.trim, Chars.trim, Chars.strip_strip]

end DocTopics
