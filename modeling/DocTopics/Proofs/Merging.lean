import DocTopics.Export
import DocTopics.Proofs.AliasIndex
import DocTopics.Topic.Merge

/-!
# What merged topics hold

Merging gives one topic per identifier. What it holds comes from the topics of that identifier, and
nothing they claim or export is lost or added.

## Main definitions

- `Topic.AddsUpTo` — the topic that a list of topics adds up to
- `Topic.Gathers` — what such a topic has from its members
- `Topic.Groups` — the invariant of merging

## Main statements

- `Topic.exists_merge_iff` — when topics can be merged
- `Topic.groups_of_merge` — every merged topic adds up the topics of its identifier
- `Topic.Groups.mem_claims`, `Topic.Groups.mem_exports` — what it claims and exports
-/

namespace DocTopics.Topic

/-! ### Adding topics up -/

/-- The first topic extended with all later ones. -/
def AddsUpTo (members : List Topic) (g : Topic) : Prop :=
  ∃ first rest, members = first :: rest ∧ rest.foldlM extendWith first = .ok g

/-- What a topic has from its members, whatever their order. -/
structure Gathers (members : List Topic) (g : Topic) : Prop where
  docType : ∀ t ∈ members, t.docType = g.docType
  aliases : ∀ a, a ∈ g.aliases ↔ ∃ t ∈ members, a ∈ t.aliases
  subjects : ∀ d, d ∈ g.subjects ↔ ∃ t ∈ members, d ∈ t.subjects
  exported : g.exported = true ↔ ∃ t ∈ members, t.exported = true

theorem exists_extendWith {t later : Topic} (h : t.docType = later.docType) :
    ∃ t', t.extendWith later = .ok t' := by
  unfold extendWith
  rw [if_pos h]
  exact ⟨_, rfl⟩

theorem id_extendWith {t later t' : Topic} (h : t.extendWith later = .ok t') : t'.id = t.id := by
  unfold extendWith at h
  split at h
  · cases h
    rfl
  · cases h

theorem gathers_singleton (t : Topic) : Gathers [t] t := by
  refine ⟨?_, ?_, ?_, ?_⟩ <;> simp

theorem Gathers.concat {members : List Topic} {g g' later : Topic} (h : Gathers members g)
    (hextend : g.extendWith later = .ok g') : Gathers (members ++ [later]) g' := by
  unfold extendWith at hextend
  split at hextend
  · rename_i htype
    cases hextend
    refine ⟨?_, ?_, ?_, ?_⟩
    · intro t ht
      rcases List.mem_append.1 ht with ht | ht
      · exact h.docType t ht
      · rw [List.mem_singleton.1 ht]
        exact htype.symm
    · intro a
      simp only [mem_extendUnique, h.aliases, List.mem_append, List.mem_singleton, or_and_right,
        exists_or, exists_eq_left]
    · intro d
      simp only [List.mem_append, h.subjects, List.mem_singleton, or_and_right, exists_or,
        exists_eq_left]
    · simp only [Bool.or_eq_true, h.exported, List.mem_append, List.mem_singleton, or_and_right,
        exists_or, exists_eq_left]
  · cases hextend

theorem Gathers.foldlM {members rest : List Topic} {first g : Topic} (h : Gathers members first)
    (hfold : rest.foldlM extendWith first = .ok g) : Gathers (members ++ rest) g := by
  induction rest generalizing members first with
  | nil =>
    cases hfold
    simpa using h
  | cons later rest ih =>
    obtain ⟨mid, hmid, hrest⟩ := foldlM_cons_eq_ok_iff.1 hfold
    simpa using ih (h.concat hmid) hrest

theorem AddsUpTo.gathers {members : List Topic} {g : Topic} (h : AddsUpTo members g) :
    Gathers members g := by
  obtain ⟨first, rest, rfl, hfold⟩ := h
  exact (gathers_singleton first).foldlM hfold

theorem AddsUpTo.ne_nil {members : List Topic} {g : Topic} (h : AddsUpTo members g) :
    members ≠ [] := by
  obtain ⟨first, rest, rfl, -⟩ := h
  exact List.cons_ne_nil first rest

theorem addsUpTo_singleton (t : Topic) : AddsUpTo [t] t :=
  ⟨t, [], rfl, rfl⟩

theorem AddsUpTo.concat {members : List Topic} {g g' later : Topic} (h : AddsUpTo members g)
    (hextend : g.extendWith later = .ok g') : AddsUpTo (members ++ [later]) g' := by
  obtain ⟨first, rest, rfl, hfold⟩ := h
  refine ⟨first, rest ++ [later], rfl, ?_⟩
  rw [List.foldlM_append, hfold]
  exact foldlM_cons_eq_ok_iff.2 ⟨g', hextend, rfl⟩

/-! ### Groups -/

/-- One topic per identifier, each the sum of the topics of its identifier. -/
structure Groups (topics groups : List Topic) : Prop where
  nodup : (groups.map (·.id)).Nodup
  covers : ∀ t ∈ topics, ∃ g ∈ groups, g.id = t.id
  adds : ∀ g ∈ groups, AddsUpTo (topics.filter fun t => t.id = g.id) g

/-- A topic extends the group of its identifier, or it starts one. -/
theorem mergeInto_eq_ok {groups groups' : List Topic} {t : Topic}
    (h : mergeInto groups t = .ok groups') :
    (groups' = groups ++ [t] ∧ ∀ g ∈ groups, g.id ≠ t.id) ∨
      ∃ front g back g', groups = front ++ g :: back ∧ g.id = t.id ∧
        g.extendWith t = .ok g' ∧ groups' = front ++ g' :: back := by
  induction groups generalizing groups' with
  | nil =>
    cases h
    exact .inl ⟨rfl, by simp⟩
  | cons g groups ih =>
    simp only [mergeInto] at h
    split at h
    · rename_i hid
      obtain ⟨g', hg', rfl⟩ := map_eq_ok_iff.1 h
      exact .inr ⟨[], g, groups, g', rfl, hid, hg', rfl⟩
    · rename_i hid
      obtain ⟨rest, hrest, rfl⟩ := map_eq_ok_iff.1 h
      rcases ih hrest with ⟨rfl, hnew⟩ | ⟨front, x, back, x', rfl, hx, hx', rfl⟩
      · exact .inl ⟨rfl, List.forall_mem_cons.2 ⟨hid, hnew⟩⟩
      · exact .inr ⟨g :: front, x, back, x', rfl, hx, hx', rfl⟩

theorem exists_mergeInto {groups : List Topic} {t : Topic}
    (h : ∀ g ∈ groups, g.id = t.id → g.docType = t.docType) :
    ∃ groups', mergeInto groups t = .ok groups' := by
  induction groups with
  | nil => exact ⟨[t], rfl⟩
  | cons g groups ih =>
    obtain ⟨hg, hgroups⟩ := List.forall_mem_cons.1 h
    simp only [mergeInto]
    split
    · rename_i hid
      obtain ⟨g', hg'⟩ := exists_extendWith (hg hid)
      exact ⟨_, map_eq_ok_iff.2 ⟨g', hg', rfl⟩⟩
    · obtain ⟨rest, hrest⟩ := ih hgroups
      exact ⟨_, map_eq_ok_iff.2 ⟨rest, hrest, rfl⟩⟩

theorem groups_nil : Groups [] [] :=
  ⟨List.nodup_nil, by simp, by simp⟩

theorem filter_id_concat_of_ne {topics : List Topic} {t : Topic} {id : String} (h : id ≠ t.id) :
    ((topics ++ [t]).filter fun x => x.id = id) = topics.filter fun x => x.id = id := by
  simp [List.filter_append, Ne.symm h]

theorem filter_id_concat_of_eq {topics : List Topic} {t : Topic} {id : String} (h : id = t.id) :
    ((topics ++ [t]).filter fun x => x.id = id) =
      (topics.filter fun x => x.id = id) ++ [t] := by
  simp [List.filter_append, h]

/-- A topic of an identifier that was not met before starts a group. -/
theorem Groups.concat {topics groups : List Topic} {t : Topic} (h : Groups topics groups)
    (hnew : ∀ g ∈ groups, g.id ≠ t.id) : Groups (topics ++ [t]) (groups ++ [t]) := by
  have hnone : (topics.filter fun x => x.id = t.id) = [] := by
    rw [List.filter_eq_nil_iff]
    intro x hx hxt
    obtain ⟨g, hg, hgx⟩ := h.covers x hx
    exact hnew g hg (hgx.trans (of_decide_eq_true hxt))
  refine ⟨?_, ?_, ?_⟩
  · rw [List.map_append, List.nodup_append]
    refine ⟨h.nodup, List.nodup_singleton _, ?_⟩
    rintro _ hg _ ht rfl
    obtain ⟨g, hg, hgt⟩ := List.mem_map.1 hg
    exact hnew g hg (hgt.trans (by simpa using ht))
  · intro x hx
    rcases List.mem_append.1 hx with hx | hx
    · obtain ⟨g, hg, hgx⟩ := h.covers x hx
      exact ⟨g, List.mem_append_left _ hg, hgx⟩
    · exact ⟨t, by simp, by rw [List.mem_singleton.1 hx]⟩
  · intro g hg
    rcases List.mem_append.1 hg with hg | hg
    · rw [filter_id_concat_of_ne (hnew g hg)]
      exact h.adds g hg
    · rw [List.mem_singleton.1 hg, filter_id_concat_of_eq rfl, hnone]
      exact addsUpTo_singleton t

/-- A topic of a known identifier extends its group, and no other. -/
theorem Groups.extend {topics front back : List Topic} {t g g' : Topic}
    (h : Groups topics (front ++ g :: back)) (hid : g.id = t.id)
    (hextend : g.extendWith t = .ok g') : Groups (topics ++ [t]) (front ++ g' :: back) := by
  have hid' : g'.id = g.id := id_extendWith hextend
  have hids : (front ++ g' :: back).map (·.id) = (front ++ g :: back).map (·.id) := by
    simp [hid']
  refine ⟨hids ▸ h.nodup, ?_, ?_⟩
  · intro x hx
    have hmem : x.id ∈ (front ++ g :: back).map (·.id) := by
      rcases List.mem_append.1 hx with hx | hx
      · obtain ⟨y, hy, hyx⟩ := h.covers x hx
        exact hyx ▸ List.mem_map_of_mem hy
      · rw [List.mem_singleton.1 hx, ← hid]
        simp
    rw [← hids] at hmem
    exact List.mem_map.1 hmem
  · intro x hx
    by_cases hxg : x = g'
    · rw [hxg, filter_id_concat_of_eq (hid'.trans hid), hid']
      exact (h.adds g (by simp)).concat hextend
    · have hold : x ∈ front ++ back := by
        rw [List.mem_append, List.mem_cons] at hx
        rw [List.mem_append]
        exact hx.imp_right fun hx => hx.resolve_left hxg
      -- identifiers are unique, so the topic is none of this group
      have hne : x.id ≠ t.id := by
        have hnodup := h.nodup
        rw [List.map_append, List.map_cons, List.nodup_middle, ← List.map_append] at hnodup
        intro hxt
        exact (List.nodup_cons.1 hnodup).1 (hid.trans hxt.symm ▸ List.mem_map_of_mem hold)
      rw [filter_id_concat_of_ne hne]
      refine h.adds x ?_
      rw [List.mem_append] at hold
      rw [List.mem_append]
      exact hold.imp_right (List.mem_cons_of_mem g)

theorem Groups.mergeInto {topics groups groups' : List Topic} {t : Topic}
    (h : Groups topics groups) (hmerge : mergeInto groups t = .ok groups') :
    Groups (topics ++ [t]) groups' := by
  rcases mergeInto_eq_ok hmerge with ⟨rfl, hnew⟩ | ⟨front, g, back, g', rfl, hid, hextend, rfl⟩
  · exact h.concat hnew
  · exact h.extend hid hextend

theorem Groups.foldlM {topics rest groups groups' : List Topic} (h : Groups topics groups)
    (hfold : rest.foldlM Topic.mergeInto groups = .ok groups') : Groups (topics ++ rest) groups' := by
  induction rest generalizing topics groups with
  | nil =>
    cases hfold
    simpa using h
  | cons t rest ih =>
    obtain ⟨mid, hmid, hrest⟩ := foldlM_cons_eq_ok_iff.1 hfold
    simpa using ih (h.mergeInto hmid) hrest

theorem Groups.docType {topics groups : List Topic} (h : Groups topics groups) {g t : Topic}
    (hg : g ∈ groups) (ht : t ∈ topics) (hid : t.id = g.id) : t.docType = g.docType :=
  (h.adds g hg).gathers.docType t (by simp [ht, hid])

theorem Groups.exists_mem {topics groups : List Topic} (h : Groups topics groups) {g : Topic}
    (hg : g ∈ groups) : ∃ t ∈ topics, t.id = g.id := by
  obtain ⟨t, ht⟩ := List.exists_mem_of_ne_nil _ (h.adds g hg).ne_nil
  rw [List.mem_filter, decide_eq_true_eq] at ht
  exact ⟨t, ht.1, ht.2⟩

theorem Groups.exists_foldlM {topics rest groups : List Topic} (h : Groups topics groups)
    (hagree : ∀ a ∈ topics ++ rest, ∀ b ∈ topics ++ rest, a.id = b.id → a.docType = b.docType) :
    ∃ groups', rest.foldlM Topic.mergeInto groups = .ok groups' := by
  induction rest generalizing topics groups with
  | nil => exact ⟨groups, rfl⟩
  | cons t rest ih =>
    have htype : ∀ g ∈ groups, g.id = t.id → g.docType = t.docType := by
      intro g hg hid
      obtain ⟨a, ha, haid⟩ := h.exists_mem hg
      rw [← h.docType hg ha haid]
      exact hagree a (List.mem_append_left _ ha) t (by simp) (haid.trans hid)
    obtain ⟨mid, hmid⟩ := exists_mergeInto htype
    obtain ⟨groups', hrest⟩ := ih (h.mergeInto hmid) (by simpa using hagree)
    exact ⟨groups', foldlM_cons_eq_ok_iff.2 ⟨mid, hmid, hrest⟩⟩

/-! ### Merging -/

theorem groups_of_merge {topics groups : List Topic} (h : merge topics = .ok groups) :
    Groups (inSourceOrder topics) groups :=
  groups_nil.foldlM h

theorem mem_inSourceOrder {topics : List Topic} {t : Topic} :
    t ∈ inSourceOrder topics ↔ t ∈ topics :=
  mem_sortBy

/-- Topics can be merged exactly when those of one identifier are of one documentation type. -/
theorem exists_merge_iff {topics : List Topic} :
    (∃ groups, merge topics = .ok groups) ↔
      ∀ a ∈ topics, ∀ b ∈ topics, a.id = b.id → a.docType = b.docType := by
  constructor
  · rintro ⟨groups, h⟩ a ha b hb hid
    have hgroups := groups_of_merge h
    obtain ⟨g, hg, hga⟩ := hgroups.covers a (mem_inSourceOrder.2 ha)
    rw [hgroups.docType hg (mem_inSourceOrder.2 ha) hga.symm,
      hgroups.docType hg (mem_inSourceOrder.2 hb) (hga.trans hid).symm]
  · intro hagree
    refine groups_nil.exists_foldlM ?_
    simpa only [List.nil_append, mem_inSourceOrder] using hagree

/-- What every group has from its members is what all groups have from all topics. -/
theorem Groups.mem_flatMap_iff {β : Type} {f : Topic → List β} {topics groups : List Topic}
    (h : Groups topics groups)
    (hf : ∀ g ∈ groups, ∀ e, e ∈ f g ↔ ∃ t ∈ topics, t.id = g.id ∧ e ∈ f t) {e : β} :
    e ∈ groups.flatMap f ↔ e ∈ topics.flatMap f := by
  rw [List.mem_flatMap, List.mem_flatMap]
  constructor
  · rintro ⟨g, hg, he⟩
    obtain ⟨t, ht, -, he⟩ := (hf g hg e).1 he
    exact ⟨t, ht, he⟩
  · rintro ⟨t, ht, he⟩
    obtain ⟨g, hg, hid⟩ := h.covers t ht
    exact ⟨g, hg, (hf g hg e).2 ⟨t, ht, hid.symm, he⟩⟩

theorem Groups.mem_subjects {topics groups : List Topic} (h : Groups topics groups) {g : Topic}
    (hg : g ∈ groups) {d : Subject} :
    d ∈ g.subjects ↔ ∃ t ∈ topics, t.id = g.id ∧ d ∈ t.subjects := by
  rw [(h.adds g hg).gathers.subjects]
  simp [and_assoc]

theorem Groups.mem_claims {topics groups : List Topic} (h : Groups topics groups) {g : Topic}
    (hg : g ∈ groups) (e : AliasEntry) :
    e ∈ g.claims ↔ ∃ t ∈ topics, t.id = g.id ∧ e ∈ t.claims := by
  rw [Topic.mem_claims]
  constructor
  · rintro (rfl | ⟨a, ha, rfl⟩ | ⟨d, hd, he⟩)
    · obtain ⟨t, ht, hid⟩ := h.exists_mem hg
      exact ⟨t, ht, hid, Topic.mem_claims.2 (.inl (by rw [hid]))⟩
    · obtain ⟨t, ht, ha⟩ := ((h.adds g hg).gathers.aliases a).1 ha
      rw [List.mem_filter, decide_eq_true_eq] at ht
      exact ⟨t, ht.1, ht.2, Topic.mem_claims.2 (.inr (.inl ⟨a, ha, by rw [ht.2]⟩))⟩
    · obtain ⟨t, ht, hid, hd⟩ := (h.mem_subjects hg).1 hd
      refine ⟨t, ht, hid, Topic.mem_claims.2 (.inr (.inr ⟨d, hd, ?_⟩))⟩
      rwa [h.docType hg ht hid, hid]
  · rintro ⟨t, ht, hid, he⟩
    rcases Topic.mem_claims.1 he with rfl | ⟨a, ha, rfl⟩ | ⟨d, hd, he⟩
    · exact .inl (by rw [hid])
    · refine .inr (.inl ⟨a, ?_, by rw [hid]⟩)
      exact ((h.adds g hg).gathers.aliases a).2 ⟨t, by simp [ht, hid], ha⟩
    · refine .inr (.inr ⟨d, (h.mem_subjects hg).2 ⟨t, ht, hid, hd⟩, ?_⟩)
      rwa [h.docType hg ht hid, hid] at he

theorem Groups.mem_packageClaims {topics groups : List Topic} (h : Groups topics groups)
    {g : Topic} (hg : g ∈ groups) (e : AliasEntry) :
    e ∈ g.packageClaims ↔ ∃ t ∈ topics, t.id = g.id ∧ e ∈ t.packageClaims := by
  simp only [Topic.mem_packageClaims]
  constructor
  · rintro ⟨hpackage, d, hd, name, hname, rfl⟩
    obtain ⟨t, ht, hid, hd⟩ := (h.mem_subjects hg).1 hd
    exact ⟨t, ht, hid, (h.docType hg ht hid).trans hpackage, d, hd, name, hname, by rw [hid]⟩
  · rintro ⟨t, ht, hid, hpackage, d, hd, name, hname, rfl⟩
    exact ⟨(h.docType hg ht hid).symm.trans hpackage, d, (h.mem_subjects hg).2 ⟨t, ht, hid, hd⟩,
      name, hname, by rw [hid]⟩

theorem mem_exports {t : Topic} {e : Export} :
    e ∈ t.exports ↔ t.exported = true ∧ ∃ d ∈ t.subjects, e ∈ Export.ofSubject t.docType d := by
  unfold exports
  split <;> simp_all

/-- A group exports all it holds as soon as one of its topics is exported. -/
theorem Groups.mem_exports {topics groups : List Topic} (h : Groups topics groups) {e : Export} :
    e ∈ groups.flatMap Topic.exports ↔
      ∃ a ∈ topics, ∃ b ∈ topics, a.id = b.id ∧ a.exported = true ∧
        ∃ d ∈ b.subjects, e ∈ Export.ofSubject b.docType d := by
  simp only [List.mem_flatMap, Topic.mem_exports]
  constructor
  · rintro ⟨g, hg, hexported, d, hd, he⟩
    obtain ⟨a, ha, ha'⟩ := (h.adds g hg).gathers.exported.1 hexported
    obtain ⟨b, hb, hid, hd⟩ := (h.mem_subjects hg).1 hd
    rw [List.mem_filter, decide_eq_true_eq] at ha
    exact ⟨a, ha.1, b, hb, ha.2.trans hid.symm, ha', d, hd, by rwa [h.docType hg hb hid]⟩
  · rintro ⟨a, ha, b, hb, hid, ha', d, hd, he⟩
    obtain ⟨g, hg, hga⟩ := h.covers a ha
    have hgb : b.id = g.id := hid.symm.trans hga.symm
    refine ⟨g, hg, ?_, d, (h.mem_subjects hg).2 ⟨b, hb, hgb, hd⟩, ?_⟩
    · exact (h.adds g hg).gathers.exported.2 ⟨a, by simp [ha, hga], ha'⟩
    · rwa [← h.docType hg hb hgb]

end DocTopics.Topic
