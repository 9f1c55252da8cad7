import DocTopics.Export
import Mathlib.Data.List.Sort

/-!
# Export lists are sorted sets

The directives of a list of topics are sorted and stand once each, so they are known from which
directives the topics give.
-/

namespace DocTopics

namespace Export

theorem eq_of_names {a b : Export} (hrank : a.rank = b.rank) (hnames : a.names = b.names) :
    a = b := by
  cases a <;> cases b <;> simp_all [rank, names]

theorem Before.irrefl (e : Export) : ¬e.Before e := by
  rintro (h | ⟨-, h | ⟨-, h⟩⟩)
  · exact Nat.lt_irrefl _ h
  · exact String.lt_irrefl _ h
  · exact String.lt_irrefl _ h

theorem Before.trans {a b c : Export} (h : a.Before b) (k : b.Before c) : a.Before c := by
  unfold Before at *
  rcases h with h | ⟨h, h'⟩ <;> rcases k with k | ⟨k, k'⟩
  · exact .inl (Nat.lt_trans h k)
  · exact .inl (k ▸ h)
  · exact .inl (h ▸ k)
  · refine .inr ⟨h.trans k, ?_⟩
    rcases h' with h' | ⟨h', h''⟩ <;> rcases k' with k' | ⟨k', k''⟩
    · exact .inl (String.lt_trans h' k')
    · exact .inl (k' ▸ h')
    · exact .inl (h' ▸ k')
    · exact .inr ⟨h'.trans k', String.lt_trans h'' k''⟩

/-- The order tells different directives apart. -/
theorem eq_of_not_before {a b : Export} (h : ¬a.Before b) (k : ¬b.Before a) : a = b := by
  simp only [Before, not_or, not_and, Nat.not_lt] at h k
  have hrank : a.rank = b.rank := Nat.le_antisymm k.1 h.1
  obtain ⟨h₁, h₂⟩ := h.2 hrank
  obtain ⟨k₁, k₂⟩ := k.2 hrank.symm
  have hfirst : a.names.1 = b.names.1 :=
    String.le_antisymm (String.not_lt.1 k₁) (String.not_lt.1 h₁)
  have hsecond : a.names.2 = b.names.2 :=
    String.le_antisymm (String.not_lt.1 (k₂ hfirst.symm)) (String.not_lt.1 (h₂ hfirst))
  exact eq_of_names hrank (Prod.ext hfirst hsecond)

end Export

theorem mem_insertExport {e x : Export} {xs : List Export} :
    x ∈ insertExport e xs ↔ x = e ∨ x ∈ xs := by
  induction xs with
  | nil => simp [insertExport]
  | cons y ys ih =>
    simp only [insertExport]
    split
    · exact List.mem_cons
    · split
      · rw [List.mem_cons, ih, List.mem_cons, or_left_comm]
      · rename_i hey hye
        rw [Export.eq_of_not_before hey hye, List.mem_cons]
        tauto

theorem pairwise_insertExport {e : Export} {xs : List Export} (h : xs.Pairwise Export.Before) :
    (insertExport e xs).Pairwise Export.Before := by
  induction xs with
  | nil => exact List.pairwise_singleton _ _
  | cons y ys ih =>
    obtain ⟨hy, hys⟩ := List.pairwise_cons.1 h
    simp only [insertExport]
    split
    · rename_i hey
      refine List.pairwise_cons.2 ⟨?_, h⟩
      intro x hx
      rcases List.mem_cons.1 hx with rfl | hx
      · exact hey
      · exact hey.trans (hy x hx)
    · split
      · rename_i hye
        refine List.pairwise_cons.2 ⟨?_, ih hys⟩
        intro x hx
        rcases mem_insertExport.1 hx with rfl | hx
        · exact hye
        · exact hy x hx
      · exact h

theorem foldl_insertExport (es xs : List Export) (h : xs.Pairwise Export.Before) :
    (es.foldl (fun acc e => insertExport e acc) xs).Pairwise Export.Before ∧
      ∀ x, x ∈ es.foldl (fun acc e => insertExport e acc) xs ↔ x ∈ xs ∨ x ∈ es := by
  induction es generalizing xs with
  | nil => exact ⟨h, by simp⟩
  | cons e es ih =>
    obtain ⟨hsorted, hmem⟩ := ih _ (pairwise_insertExport (e := e) h)
    refine ⟨hsorted, fun x => ?_⟩
    rw [List.foldl_cons, hmem, mem_insertExport, List.mem_cons]
    tauto

theorem mem_exportsOf {topics : List Topic} {e : Export} :
    e ∈ exportsOf topics ↔ e ∈ topics.flatMap Topic.exports := by
  have := (foldl_insertExport (topics.flatMap Topic.exports) [] .nil).2 e
  simpa [exportsOf] using this

theorem sorted_exportsOf (topics : List Topic) : (exportsOf topics).Pairwise Export.Before :=
  (foldl_insertExport (topics.flatMap Topic.exports) [] .nil).1

/-- Topics that give the same directives have the same list. -/
theorem exportsOf_eq_of_mem_iff {topics topics' : List Topic}
    (h : ∀ e, e ∈ topics.flatMap Topic.exports ↔ e ∈ topics'.flatMap Topic.exports) :
    exportsOf topics = exportsOf topics' := by
  have : Std.Irrefl Export.Before := ⟨Export.Before.irrefl⟩
  have : Std.Antisymm Export.Before :=
    ⟨fun a b hab hba => absurd (hab.trans hba) (Export.Before.irrefl a)⟩
  refine (sorted_exportsOf topics).eq_of_mem_iff (sorted_exportsOf topics') ?_
  intro e
  rw [mem_exportsOf, mem_exportsOf, h]

end DocTopics
