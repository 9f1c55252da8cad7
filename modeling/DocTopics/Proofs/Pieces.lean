import DocTopics.Text.Basic
import Mathlib.Data.List.Basic

/-!
# Pieces between separators

A text is the pieces between its separators, put together again with a separator between neighbours.
Its words are the pieces between white space that are not empty; collapsing white space keeps them.
-/

namespace DocTopics

theorem Chars.pieces_append_cons {sep : Char → Bool} {s : Char} (hs : sep s = true)
    (a b : List Char) : pieces sep (a ++ s :: b) = pieces sep a ++ pieces sep b := by
  induction a with
  | nil => simp [pieces, hs]
  | cons c cs ih =>
    simp only [List.cons_append, pieces, ih]
    split
    · rfl
    · cases hcs : pieces sep cs with
      | nil => exact absurd hcs (pieces_ne_nil sep cs)
      | cons p ps => rfl

theorem Chars.sep_of_mem_pieces {sep : Char → Bool} {cs : List Char} :
    ∀ p ∈ pieces sep cs, ∀ c ∈ p, sep c = false := by
  induction cs with
  | nil => simp [pieces]
  | cons d ds ih =>
    unfold pieces
    split
    · simpa using ih
    · rename_i hd
      cases hds : pieces sep ds with
      | nil => simpa [consHead] using hd
      | cons p ps =>
        rw [hds] at ih
        simp only [consHead, List.mem_cons, forall_eq_or_imp] at ih ⊢
        exact ⟨⟨by simpa using hd, ih.1⟩, ih.2⟩

theorem Chars.mem_of_mem_pieces {sep : Char → Bool} {cs : List Char} :
    ∀ p ∈ pieces sep cs, p ⊆ cs := by
  induction cs with
  | nil => simp [pieces]
  | cons d ds ih =>
    unfold pieces
    split
    · intro p hp
      rcases List.mem_cons.1 hp with rfl | hp
      · exact List.nil_subset _
      · exact List.subset_cons_of_subset d (ih p hp)
    · cases hds : pieces sep ds with
      | nil => exact absurd hds (pieces_ne_nil sep ds)
      | cons q qs =>
        rw [hds] at ih
        obtain ⟨hq, hqs⟩ := List.forall_mem_cons.1 ih
        refine List.forall_mem_cons.2 ⟨List.cons_subset_cons d hq, fun p hp => ?_⟩
        exact List.subset_cons_of_subset d (hqs p hp)

theorem Chars.intercalate_pieces (s : Char) (cs : List Char) :
    [s].intercalate (pieces (· == s) cs) = cs := by
  induction cs with
  | nil => rfl
  | cons c cs ih =>
    unfold pieces
    cases hcs : pieces (· == s) cs with
    | nil => exact absurd hcs (pieces_ne_nil _ cs)
    | cons p ps =>
      rw [hcs] at ih
      split
      · rename_i hc
        rw [List.intercalate_cons_cons, ih, beq_iff_eq.1 hc]
        rfl
      · cases ps with
        | nil => simpa [consHead, List.intercalate] using ih
        | cons q qs =>
          rw [List.intercalate_cons_cons] at ih
          rw [consHead, List.intercalate_cons_cons, List.cons_append, List.cons_append, ih]

/-- A list of characters is told by its pieces. -/
theorem Chars.pieces_injective {s : Char} {a b : List Char}
    (h : pieces (· == s) a = pieces (· == s) b) : a = b := by
  rw [← intercalate_pieces s a, h, intercalate_pieces s b]

/-- The last piece is not empty if the text does not end in a separator. -/
theorem Chars.getLast?_pieces_ne_nil {sep : Char → Bool} {cs : List Char} (hne : cs ≠ [])
    (h : ∀ c ∈ cs.getLast?, sep c = false) : ∀ p ∈ (pieces sep cs).getLast?, p ≠ [] := by
  induction cs with
  | nil => exact absurd rfl hne
  | cons c cs ih =>
    intro p hp
    cases cs with
    | nil =>
      rw [pieces, h c rfl] at hp
      rw [← Option.some_inj.1 hp]
      exact List.cons_ne_nil c []
    | cons d ds =>
      rw [List.getLast?_cons_cons] at h
      have hlast := ih (List.cons_ne_nil d ds) h
      rw [pieces] at hp
      cases hpieces : pieces sep (d :: ds) with
      | nil => exact absurd hpieces (pieces_ne_nil sep _)
      | cons q qs =>
        rw [hpieces] at hp hlast
        split at hp
        · exact hlast p hp
        · cases qs with
          | nil =>
            rw [← Option.some_inj.1 hp]
            exact List.cons_ne_nil c q
          | cons r rs => exact hlast p hp

/-- Lists without separators are the pieces of the list that they are joined to. -/
theorem Chars.pieces_intercalate {sep : Char → Bool} {s : Char} (hs : sep s = true)
    {parts : List (List Char)} (hne : parts ≠ []) (h : ∀ p ∈ parts, ∀ c ∈ p, sep c = false) :
    pieces sep ([s].intercalate parts) = parts := by
  induction parts with
  | nil => exact absurd rfl hne
  | cons p parts ih =>
    obtain ⟨hp, hparts⟩ := List.forall_mem_cons.1 h
    cases parts with
    | nil => simpa [List.intercalate] using pieces_of_forall hp
    | cons q parts =>
      rw [List.intercalate_cons_cons, List.append_assoc, List.singleton_append,
        pieces_append _ hp hs, ih (List.cons_ne_nil q parts) hparts]

/-! ### Words -/

theorem Chars.words_append_cons {s : Char} (hs : isBlank s = true) (a b : List Char) :
    words (a ++ s :: b) = words a ++ words b := by
  rw [words, pieces_append_cons hs, List.filter_append]
  rfl

/-- The first word starts with the first character that is not white space. -/
theorem Chars.head?_words (cs : List Char) :
    (words cs).head?.bind List.head? = (trimStart cs).head? := by
  induction cs with
  | nil => rfl
  | cons c cs ih =>
    by_cases hc : isBlank c = true
    · have hwords : words (c :: cs) = words cs := words_append_cons hc [] cs
      rw [hwords, ih, trimStart, trimStart, List.dropWhile_cons_of_pos hc]
    · rw [trimStart, List.dropWhile_cons_of_neg hc, words, pieces, if_neg hc]
      cases hpieces : pieces isBlank cs with
      | nil => exact absurd hpieces (pieces_ne_nil isBlank cs)
      | cons p ps => rfl

theorem Chars.words_intercalate {ws : List (List Char)}
    (h : ∀ w ∈ ws, w ≠ [] ∧ ∀ c ∈ w, isBlank c = false) : words ([' '].intercalate ws) = ws := by
  by_cases hne : ws = []
  · rw [hne]
    rfl
  · rw [words, pieces_intercalate (by decide) hne fun w hw => (h w hw).2, List.filter_eq_self]
    intro w hw
    simpa using (h w hw).1

theorem Text.toList_join (sep : String) (texts : List String) :
    (Text.join sep texts).toList = sep.toList.intercalate (texts.map String.toList) := by
  induction texts with
  | nil => rfl
  | cons s texts ih =>
    cases texts with
    | nil => simp [Text.join, List.intercalate]
    | cons next texts =>
      rw [Text.join, String.toList_append, String.toList_append, ih]
      exact List.intercalate_cons_cons.symm

theorem Text.join_concat (sep text : String) (texts : List String) (last : String) :
    Text.join sep (text :: texts ++ [last]) = Text.join sep (text :: texts) ++ sep ++ last := by
  induction texts generalizing text with
  | nil => rfl
  | cons next texts ih =>
    have hstep : ∀ rest, Text.join sep (text :: next :: rest) =
        text ++ sep ++ Text.join sep (next :: rest) := fun _ => rfl
    rw [List.cons_append, List.cons_append, hstep, hstep, ← List.cons_append, ih]
    simp only [String.append_assoc]

/-- A text keeps its words when its white space is collapsed. -/
theorem Text.words_collapse (s : String) :
    Chars.words (Text.collapse s).toList = Chars.words s.toList := by
  have htoList : (Text.words s).map String.toList = Chars.words s.toList := by
    rw [Text.words, List.map_map]
    simp
  have hwords : ∀ w ∈ Chars.words s.toList, w ≠ [] ∧ ∀ c ∈ w, isBlank c = false := by
    intro w hw
    rw [Chars.words, List.mem_filter] at hw
    exact ⟨by simpa using hw.2, Chars.sep_of_mem_pieces w hw.1⟩
  rw [Text.collapse, Text.toList_join, htoList]
  exact Chars.words_intercalate hwords

theorem Text.joinLines_splitOn (s : String) : Text.joinLines (Text.splitOn '\n' s) = s := by
  have hmap : (Text.splitOn '\n' s).map String.toList = Chars.pieces (· == '\n') s.toList := by
    rw [Text.splitOn, List.map_map]
    simp
  rw [← String.toList_inj, Text.joinLines, Text.toList_join, hmap]
  exact Chars.intercalate_pieces '\n' s.toList

end DocTopics
