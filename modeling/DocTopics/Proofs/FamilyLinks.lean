import DocTopics.Proofs.SourceOrder
import DocTopics.Topic.CrossReference

/-!
# The members of a family link to each other

Every topic of a family has one line that links to all other topics of the family, in ascending order
of their identifiers. Links go both ways, and the order of the topics does not matter.

## Main definitions

- `Topic.relatives` — the topics a topic links to for one of its families
- `Topic.ListsRelatives` — which topics these are

## Main statements

- `sortStrings_eq_of_perm`, `pairwise_sortStrings` — sorting gives one list for each set of strings
- `Topic.listsRelatives_relatives` — the other members of the family, each once
- `Topic.mem_relatives_comm` — links go both ways
- `Topic.resolve_links_families` — the lines that a list of topics gets
-/

namespace DocTopics

/-! ### Sorted strings -/

theorem pairwise_le_sortStrings (xs : List String) : (sortStrings xs).Pairwise (· ≤ ·) := by
  have hle : ∀ a b : String, ¬decide (b < a) = true ↔ a ≤ b := by
    intro a b
    rw [decide_eq_true_iff, String.not_lt]
  refine (pairwise_sortBy _ ?_ ?_ xs).imp fun h => (hle _ _).1 h
  · intro a b hab hba
    exact String.lt_irrefl a (String.lt_trans (of_decide_eq_true hab) (of_decide_eq_true hba))
  · intro a b c hab hbc
    exact (hle a c).2 (String.le_trans ((hle a b).1 hab) ((hle b c).1 hbc))

theorem pairwise_sortStrings {xs : List String} (h : xs.Nodup) :
    (sortStrings xs).Pairwise (· < ·) := by
  have hnodup : (sortStrings xs).Nodup := (perm_sortBy _ xs).nodup_iff.2 h
  refine ((pairwise_le_sortStrings xs).and hnodup).imp ?_
  rintro a b ⟨hle, hne⟩
  by_contra hlt
  exact hne (String.le_antisymm hle (String.not_lt.1 hlt))

/-- Sorting forgets the order of its input. -/
theorem sortStrings_eq_of_perm {xs ys : List String} (h : xs.Perm ys) :
    sortStrings xs = sortStrings ys := by
  refine List.Perm.eq_of_pairwise (fun _ _ _ _ => String.le_antisymm)
    (pairwise_le_sortStrings xs) (pairwise_le_sortStrings ys) ?_
  exact (perm_sortBy _ xs).trans (h.trans (perm_sortBy _ ys).symm)

namespace Topic

/-! ### The other members of a family -/

/-- The identifiers of the members of a family other than the topic itself. -/
def relatives (topics : List Topic) (t : Topic) (family : String) : List String :=
  (familyMembers topics family).filter (· != t.id)

/-- The identifiers are those of the topics of the family other than `t`, once each and in ascending
order. -/
structure ListsRelatives (topics : List Topic) (t : Topic) (family : String) (ids : List String) :
    Prop where
  ascending : ids.Pairwise (· < ·)
  mem_iff : ∀ id, id ∈ ids ↔ ∃ u ∈ topics, family ∈ u.families ∧ u.id ≠ t.id ∧ u.id = id

theorem mem_familyMembers {topics : List Topic} {family id : String} :
    id ∈ familyMembers topics family ↔ ∃ u ∈ topics, family ∈ u.families ∧ u.id = id := by
  simp only [familyMembers, sortStrings, mem_sortBy, List.mem_flatMap, List.mem_map, List.mem_filter,
    beq_iff_eq]
  constructor
  · rintro ⟨u, hu, f, ⟨hfamily, rfl⟩, hid⟩
    exact ⟨u, hu, hfamily, hid⟩
  · rintro ⟨u, hu, hfamily, hid⟩
    exact ⟨u, hu, family, ⟨hfamily, rfl⟩, hid⟩

theorem mem_relatives {topics : List Topic} {t : Topic} {family id : String} :
    id ∈ relatives topics t family ↔
      ∃ u ∈ topics, family ∈ u.families ∧ u.id ≠ t.id ∧ u.id = id := by
  rw [relatives, List.mem_filter, mem_familyMembers, bne_iff_ne]
  constructor
  · rintro ⟨⟨u, hu, hfamily, rfl⟩, hne⟩
    exact ⟨u, hu, hfamily, hne, rfl⟩
  · rintro ⟨u, hu, hfamily, hne, rfl⟩
    exact ⟨⟨u, hu, hfamily, rfl⟩, hne⟩

/-- A topic that names a family once is entered once. -/
theorem nodup_members {topics : List Topic} (hids : (topics.map (·.id)).Nodup)
    (hfamilies : ∀ t ∈ topics, t.families.Nodup) (family : String) :
    (topics.flatMap fun t => (t.families.filter (· == family)).map fun _ => t.id).Nodup := by
  rw [List.nodup_flatMap]
  constructor
  · intro t ht
    have hcount : (t.families.filter (· == family)).length ≤ 1 := by
      rw [← List.countP_eq_length_filter]
      exact List.nodup_iff_count_le_one.1 (hfamilies t ht) family
    rw [List.map_const', List.nodup_replicate]
    exact hcount
  · rw [List.Nodup, List.pairwise_map] at hids
    refine hids.imp ?_
    intro t u hne id ht hu
    obtain ⟨-, -, rfl⟩ := List.mem_map.1 ht
    obtain ⟨-, -, hid⟩ := List.mem_map.1 hu
    exact hne hid.symm

theorem listsRelatives_relatives {topics : List Topic} (hids : (topics.map (·.id)).Nodup)
    (hfamilies : ∀ t ∈ topics, t.families.Nodup) (t : Topic) (family : String) :
    ListsRelatives topics t family (relatives topics t family) where
  ascending := (pairwise_sortStrings (nodup_members hids hfamilies family)).filter _
  mem_iff _ := mem_relatives

/-- Among topics with distinct identifiers, links within a family go both ways. -/
theorem mem_relatives_comm {topics : List Topic} (hids : (topics.map (·.id)).Nodup) {t u : Topic}
    (ht : t ∈ topics) (hu : u ∈ topics) (family : String) :
    (family ∈ t.families ∧ u.id ∈ relatives topics t family) ↔
      (family ∈ u.families ∧ t.id ∈ relatives topics u family) := by
  have hmem : ∀ {v w : Topic}, v ∈ topics →
      (v.id ∈ relatives topics w family ↔ family ∈ v.families ∧ v.id ≠ w.id) := by
    intro v w hv
    rw [mem_relatives]
    constructor
    · rintro ⟨v', hv', hfamily, hne, hid⟩
      obtain rfl := List.inj_on_of_nodup_map hids hv' hv hid
      exact ⟨hfamily, hne⟩
    · rintro ⟨hfamily, hne⟩
      exact ⟨v, hv, hfamily, hne, rfl⟩
  rw [hmem hu, hmem ht]
  constructor
  · rintro ⟨hfamily, hfamily', hne⟩
    exact ⟨hfamily', hfamily, hne.symm⟩
  · rintro ⟨hfamily, hfamily', hne⟩
    exact ⟨hfamily', hfamily, hne.symm⟩

theorem relatives_eq_of_perm {topics topics' : List Topic} (h : topics.Perm topics') (t : Topic)
    (family : String) : relatives topics t family = relatives topics' t family := by
  rw [relatives, relatives, familyMembers, familyMembers, sortStrings_eq_of_perm (h.flatMap_right _)]

/-! ### The lines of a topic -/

/-- The topic shares the family with another topic. -/
def HasRelatives (topics : List Topic) (t : Topic) (family : String) : Prop :=
  ∃ u ∈ topics, family ∈ u.families ∧ u.id ≠ t.id

instance (topics : List Topic) (t : Topic) (family : String) :
    Decidable (HasRelatives topics t family) :=
  inferInstanceAs (Decidable (∃ u ∈ topics, _ ∧ _))

/-- The line that links to the topics of a family. -/
def familyLine (family : String) (ids : List String) : String :=
  "Other " ++ family ++ ": " ++ Text.join ", " (ids.map link)

theorem relatives_eq_nil_iff {topics : List Topic} {t : Topic} {family : String} :
    relatives topics t family = [] ↔ ¬HasRelatives topics t family := by
  rw [List.eq_nil_iff_forall_not_mem]
  constructor
  · rintro h ⟨u, hu, hfamily, hne⟩
    exact h u.id (mem_relatives.2 ⟨u, hu, hfamily, hne, rfl⟩)
  · intro h id hid
    obtain ⟨u, hu, hfamily, hne, -⟩ := mem_relatives.1 hid
    exact h ⟨u, hu, hfamily, hne⟩

theorem familyLink_eq (topics : List Topic) (t : Topic) (family : String) :
    familyLink topics t family = if HasRelatives topics t family then
      some (familyLine family (relatives topics t family)) else none := by
  unfold familyLink
  split
  · rename_i hnil
    rw [if_neg (relatives_eq_nil_iff.1 hnil)]
  · rename_i hne
    rw [if_pos (not_not.1 (mt relatives_eq_nil_iff.2 hne))]
    rfl

/-- There is a line for each family that has other members, in the order of the families. -/
theorem familyLinks_eq (topics : List Topic) (t : Topic) :
    familyLinks topics t = (t.families.filter (HasRelatives topics t ·)).map fun family =>
      familyLine family (relatives topics t family) := by
  unfold familyLinks
  induction t.families with
  | nil => rfl
  | cons family families ih =>
    rw [List.filterMap_cons, familyLink_eq, List.filter_cons, ih]
    by_cases h : HasRelatives topics t family <;> simp [h]

theorem familyLinks_eq_of_perm {topics topics' : List Topic} (h : topics.Perm topics') (t : Topic) :
    familyLinks topics t = familyLinks topics' t := by
  refine List.filterMap_congr fun family _ => ?_
  have hrelatives : (familyMembers topics family).filter (· != t.id) =
      (familyMembers topics' family).filter (· != t.id) := relatives_eq_of_perm h t family
  rw [familyLink, familyLink, hrelatives]

/-! ### All topics -/

/-- Each topic of a list gets one line for each of its families that has other members. The line links
to all of them in ascending order, links go both ways, and the lines do not depend on the order of
the list. -/
theorem resolve_links_families {topics : List Topic} (hids : (topics.map (·.id)).Nodup)
    (hfamilies : ∀ t ∈ topics, t.families.Nodup) :
    List.Forall₂ (fun t t' => t'.id = t.id ∧
        t'.seeAlso = t.seeAlso ++ (t.families.filter (HasRelatives topics t ·)).map fun family =>
          familyLine family (relatives topics t family))
      topics (resolve topics) ∧
    (∀ t ∈ topics, ∀ family ∈ t.families,
      ListsRelatives topics t family (relatives topics t family)) ∧
    (∀ t ∈ topics, ∀ u ∈ topics, ∀ family,
      (family ∈ t.families ∧ u.id ∈ relatives topics t family) ↔
        (family ∈ u.families ∧ t.id ∈ relatives topics u family)) ∧
    ∀ topics', topics.Perm topics' →
      ((resolve topics).map fun t => (t.id, t.seeAlso)).Perm
        ((resolve topics').map fun t => (t.id, t.seeAlso)) := by
  refine ⟨?_, fun t _ family _ => listsRelatives_relatives hids hfamilies t family,
    fun t ht u hu family => mem_relatives_comm hids ht hu family, ?_⟩
  · rw [resolve, List.forall₂_map_right_iff, List.forall₂_same]
    intro t _
    exact ⟨rfl, congrArg (t.seeAlso ++ ·) (familyLinks_eq topics t)⟩
  · intro topics' hperm
    simp only [resolve, List.map_map, Function.comp_def, familyLinks_eq_of_perm hperm]
    exact hperm.map _

/-- Three topics and three families, one of which has a single member. -/
def verbs : List Topic :=
  [{ id := "mutate", pos := ⟨"R/verbs.R", 1⟩, docType := .function
     families := ["rows", "verbs", "columns"] },
   { id := "filter", pos := ⟨"R/verbs.R", 9⟩, docType := .function
     families := ["verbs", "rows"], seeAlso := ["The guide."] },
   { id := "arrange", pos := ⟨"R/verbs.R", 17⟩, docType := .function
     families := ["rows"] }]

theorem resolve_verbs :
    (resolve verbs).map (·.seeAlso) =
      [["Other rows: \\code\x7b\\link\x7barrange\x7d\x7d, \\code\x7b\\link\x7bfilter\x7d\x7d",
        "Other verbs: \\code\x7b\\link\x7bfilter\x7d\x7d"],
       ["The guide.", "Other verbs: \\code\x7b\\link\x7bmutate\x7d\x7d",
        "Other rows: \\code\x7b\\link\x7barrange\x7d\x7d, \\code\x7b\\link\x7bmutate\x7d\x7d"],
       ["Other rows: \\code\x7b\\link\x7bfilter\x7d\x7d, \\code\x7b\\link\x7bmutate\x7d\x7d"]] ∧
    ((resolve verbs).map fun t => (t.id, t.seeAlso)).Perm
      ((resolve verbs.reverse).map fun t => (t.id, t.seeAlso)) := by
  have hfamilies : verbs.all (fun t => decide t.families.Nodup) = true := by decide
  have hids : (verbs.map (·.id)).Nodup := by decide
  have hlinks := resolve_links_families hids fun t ht =>
    of_decide_eq_true (List.all_eq_true.1 hfamilies t ht)
  exact ⟨by decide +kernel, hlinks.2.2.2 _ verbs.reverse_perm.symm⟩

end Topic

end DocTopics
