import DocTopics.Proofs.FirstOccurrences
import DocTopics.Proofs.Merging
import DocTopics.Proofs.SourceOrder
import Mathlib.Data.List.Induction

/-!
# What topics add up to

Adding one topic to another is associative in every field. So a whole group of topics has a sum that
can be told field by field: the last text that a tag set, the first value, every name once where it
came up first, everything else one after the other. Merging gives these sums, one per identifier.

## Main definitions

- `Passage.chosen` — the text that stays of several
- `Topic.sum` — a topic and later ones, field by field
- `Topic.IsStableSort` — the topics by place, those of one place in their old order

## Main statements

- `Topic.extendWith_assoc` — adding topics is associative
- `Topic.foldlM_extendWith` — adding topics one by one gives their sum
- `Topic.merge_eq_sums` — when topics can be merged, and what they become
-/

namespace DocTopics

/-! ### Texts -/

namespace Passage

/-- The last text that a tag set, or else the first text. -/
def chosen (texts : List Passage) : Option Passage :=
  (texts.filter (·.explicit)).getLast?.or texts.head?

theorem merge_some (earlier : Option Passage) (later : Passage) :
    merge earlier (some later) =
      if later.explicit then some later else earlier.or (some later) := by
  cases earlier <;> cases hlater : later.explicit <;> simp [merge, hlater]

theorem merge_assoc (a b c : Option Passage) : merge (merge a b) c = merge a (merge b c) := by
  cases c with
  | none => rfl
  | some last =>
    rw [merge_some, merge_some]
    by_cases hlast : last.explicit = true
    · rw [if_pos hlast, if_pos hlast, merge_some, if_pos hlast]
    · rw [if_neg hlast, if_neg hlast]
      cases b with
      | none => rw [Option.none_or, merge_some, if_neg hlast, merge]
      | some middle =>
        rw [Option.some_or, merge_some]
        split
        · rfl
        · rw [Option.or_assoc, Option.some_or]

theorem chosen_toList (text : Option Passage) : chosen text.toList = text := by
  cases text with
  | none => rfl
  | some text => cases htext : text.explicit <;> simp [chosen, htext]

/-- One more text is chosen if a tag set it or if it is the first. -/
theorem merge_chosen (texts : List Passage) (later : Option Passage) :
    merge (chosen texts) later = chosen (texts ++ later.toList) := by
  cases later with
  | none => rw [Option.toList_none, List.append_nil, merge]
  | some text =>
    rw [merge_some, Option.toList_some]
    by_cases htext : text.explicit = true
    · simp [chosen, htext]
    · simp [chosen, htext]

end Passage

theorem filterMap_singleton {α β : Type} (f : α → Option β) (x : α) :
    [x].filterMap f = (f x).toList :=
  rfl

/-! ### Places -/

theorem Place.before_trans {a b c : Place} (hab : a.before b = true) (hbc : b.before c = true) :
    a.before c = true := by
  rw [before_iff] at hab hbc ⊢
  omega

/-- What belongs to the earliest of three places, the first of equal ones counting. -/
theorem Place.ite_before_assoc {α : Type} (a b c : Place) (x y z : α) :
    (if c.before (if b.before a then b else a) then z else if b.before a then y else x) =
      if (if c.before b then c else b).before a then (if c.before b then z else y) else x := by
  by_cases hba : b.before a = true
  · by_cases hcb : c.before b = true
    · simp only [hba, hcb, before_trans hcb hba, if_true]
    · simp only [hba, hcb, if_true, if_false, Bool.false_eq_true]
  · by_cases hcb : c.before b = true
    · simp only [hba, hcb, if_true, if_false, Bool.false_eq_true]
    · simp only [hba, hcb, not_before_trans hba hcb, if_false, Bool.false_eq_true]

namespace Topic

/-! ### Sums -/

/-- The first of the topics that no other one stands before. -/
def earliest (first : Topic) (rest : List Topic) : Topic :=
  rest.foldl (fun t u => if u.place.before t.place then u else t) first

/-- A topic with all that later ones say, field by field. -/
def sum (first : Topic) (rest : List Topic) : Topic :=
  let members := first :: rest
  { id := first.id
    place := (earliest first rest).place
    pos := (earliest first rest).pos
    docType := first.docType
    title := Passage.chosen (members.filterMap (·.title))
    description := Passage.chosen (members.filterMap (·.description))
    details := Passage.chosen (members.filterMap (·.details))
    usage := Passage.chosen (members.filterMap (·.usage))
    value := members.findSome? (·.value)
    format := members.findSome? (·.format)
    source := members.findSome? (·.source)
    params := withNew Param.name first.params (rest.flatMap (·.params))
    slots := withNew Param.name first.slots (rest.flatMap (·.slots))
    fields := withNew Param.name first.fields (rest.flatMap (·.fields))
    aliases := withNew (fun x => x) first.aliases (rest.flatMap (·.aliases))
    families := withNew (fun x => x) first.families (rest.flatMap (·.families))
    keywords := withNew (fun x => x) first.keywords (rest.flatMap (·.keywords))
    inheritParams := withNew (fun x => x) first.inheritParams (rest.flatMap (·.inheritParams))
    sections := members.flatMap (·.sections)
    examples := members.flatMap (·.examples)
    references := members.flatMap (·.references)
    seeAlso := members.flatMap (·.seeAlso)
    subjects := members.flatMap (·.subjects)
    exported := members.any (·.exported)
    noRd := members.any (·.noRd)
    shadowedAliases := first.shadowedAliases }

theorem earliest_concat (first : Topic) (rest : List Topic) (later : Topic) :
    earliest first (rest ++ [later]) =
      if later.place.before (earliest first rest).place then later else earliest first rest := by
  rw [earliest, List.foldl_append]
  rfl

/-- In source order the first topic is the earliest. -/
theorem earliest_of_forall_not {first : Topic} {rest : List Topic}
    (h : ∀ t ∈ rest, ¬t.place.before first.place = true) : earliest first rest = first := by
  induction rest using List.reverseRecOn with
  | nil => rfl
  | append_singleton rest later ih =>
    rw [earliest_concat, ih fun t ht => h t (List.mem_append_left _ ht),
      if_neg (h later (by simp))]

theorem sum_nil (t : Topic) : t.sum [] = t := by
  simp only [sum, earliest, List.foldl_nil, filterMap_singleton, Passage.chosen_toList,
    List.flatMap_nil, withNew_nil, List.flatMap_singleton, List.findSome?_singleton, List.any_cons,
    List.any_nil, Bool.or_false]

/-- A topic that is added to a sum becomes its last member. -/
theorem sum_extendWith {first later : Topic} (rest : List Topic)
    (htype : later.docType = first.docType) :
    (first.sum rest).extendWith later = .ok (first.sum (rest ++ [later])) := by
  simp only [extendWith, sum, htype, if_true, earliest_concat, apply_ite Topic.place,
    apply_ite Topic.pos, ← List.cons_append, List.filterMap_append, filterMap_singleton,
    Passage.merge_chosen, List.findSome?_append, List.findSome?_singleton, Param.extendByName_eq,
    extendUnique_eq, List.flatMap_append, List.flatMap_singleton, withNew_append, List.any_append,
    List.any_cons, List.any_nil, Bool.or_false]
  rfl

/-- Topics of one type, added one by one, make their sum. -/
theorem foldlM_extendWith {first : Topic} {rest : List Topic}
    (htypes : ∀ t ∈ rest, t.docType = first.docType) :
    rest.foldlM extendWith first = .ok (first.sum rest) := by
  induction rest using List.reverseRecOn with
  | nil =>
    rw [sum_nil]
    rfl
  | append_singleton rest later ih =>
    rw [List.foldlM_append, ih fun t ht => htypes t (List.mem_append_left _ ht)]
    refine foldlM_cons_eq_ok_iff.2 ⟨_, ?_, rfl⟩
    exact sum_extendWith rest (htypes later (by simp))

theorem AddsUpTo.eq_sum {members : List Topic} {g : Topic} (h : AddsUpTo members g) :
    ∃ first rest, members = first :: rest ∧ g = first.sum rest := by
  have htypes := h.gathers.docType
  obtain ⟨first, rest, rfl, hfold⟩ := h
  have hfirst : first.docType = g.docType := htypes first List.mem_cons_self
  have hsum : rest.foldlM extendWith first = .ok (first.sum rest) := by
    refine foldlM_extendWith fun t ht => ?_
    exact (htypes t (List.mem_cons_of_mem _ ht)).trans hfirst.symm
  exact ⟨first, rest, rfl, Except.ok.inj (hfold.symm.trans hsum)⟩

/-! ### Adding three topics -/

theorem docType_extendWith {t later t' : Topic} (h : t.extendWith later = .ok t') :
    t.docType = later.docType ∧ t'.docType = t.docType := by
  unfold extendWith at h
  split at h
  · rename_i htype
    cases h
    exact ⟨htype, rfl⟩
  · cases h

theorem bind_extendWith_eq_sum {a b c : Topic} (hab : a.docType = b.docType)
    (hbc : b.docType = c.docType) :
    (a.extendWith b >>= fun ab => ab.extendWith c) = .ok (a.sum [b, c]) := by
  have hfold : [b, c].foldlM extendWith a = .ok (a.sum [b, c]) := by
    refine foldlM_extendWith ?_
    simp [hab, hbc]
  obtain ⟨ab, hleft, hfold⟩ := foldlM_cons_eq_ok_iff.1 hfold
  obtain ⟨abc, hright, hend⟩ := foldlM_cons_eq_ok_iff.1 hfold
  cases hend
  exact bind_eq_ok_iff.2 ⟨ab, hleft, hright⟩

/-- Every rule for a field is associative on its own. -/
theorem bind_extendWith {a b c : Topic} (hab : a.docType = b.docType)
    (hbc : b.docType = c.docType) :
    (a.extendWith b >>= fun ab => ab.extendWith c) =
      (b.extendWith c >>= fun bc => a.extendWith bc) := by
  simp only [extendWith, hab, hbc, if_true, bind, Except.bind, Place.ite_before_assoc,
    Passage.merge_assoc, Option.or_assoc, Param.extendByName_eq, extendUnique_eq, withNew_assoc,
    List.append_assoc, Bool.or_assoc]

/-- Three topics can be added from the left or from the right. Either way it works exactly if they
are of one documentation type, and then it gives their sum. -/
theorem extendWith_assoc (a b c t : Topic) :
    ((a.extendWith b >>= fun ab => ab.extendWith c) = .ok t ↔
      (b.extendWith c >>= fun bc => a.extendWith bc) = .ok t) ∧
    ((a.extendWith b >>= fun ab => ab.extendWith c) = .ok t ↔
      (a.docType = b.docType ∧ b.docType = c.docType) ∧ t = a.sum [b, c]) := by
  have hleft : (a.extendWith b >>= fun ab => ab.extendWith c) = .ok t →
      a.docType = b.docType ∧ b.docType = c.docType := by
    intro h
    obtain ⟨ab, hab, habc⟩ := bind_eq_ok_iff.1 h
    obtain ⟨htype, hsum⟩ := docType_extendWith hab
    exact ⟨htype, htype.symm.trans (hsum.symm.trans (docType_extendWith habc).1)⟩
  have hright : (b.extendWith c >>= fun bc => a.extendWith bc) = .ok t →
      a.docType = b.docType ∧ b.docType = c.docType := by
    intro h
    obtain ⟨bc, hbc, habc⟩ := bind_eq_ok_iff.1 h
    obtain ⟨htype, hsum⟩ := docType_extendWith hbc
    exact ⟨(docType_extendWith habc).1.trans hsum, htype⟩
  refine ⟨⟨fun h => ?_, fun h => ?_⟩, ⟨fun h => ⟨hleft h, ?_⟩, ?_⟩⟩
  · rwa [← bind_extendWith (hleft h).1 (hleft h).2]
  · rwa [bind_extendWith (hright h).1 (hright h).2]
  · rw [bind_extendWith_eq_sum (hleft h).1 (hleft h).2] at h
    exact (Except.ok.inj h).symm
  · rintro ⟨⟨hab, hbc⟩, rfl⟩
    exact bind_extendWith_eq_sum hab hbc

/-! ### The order of the groups -/

theorem map_id_mergeInto {groups groups' : List Topic} {t : Topic}
    (h : mergeInto groups t = .ok groups') :
    groups'.map (·.id) = withNew (fun x => x) (groups.map (·.id)) [t.id] := by
  rw [withNew_cons, withNew_nil]
  obtain ⟨rfl, hnew⟩ | ⟨front, g, back, g', rfl, hid, hextend, rfl⟩ := mergeInto_eq_ok h
  · have hfree : ((groups.map (·.id)).any fun y => y == t.id) = false := by
      simpa using hnew
    simp [hfree]
  · have htaken : (((front ++ g :: back).map (·.id)).any fun y => y == t.id) = true := by
      simp [hid]
    rw [if_pos htaken]
    simp [id_extendWith hextend]

/-- Groups stand in the order in which their identifiers come up. -/
theorem map_id_foldlM {topics groups groups' : List Topic}
    (h : topics.foldlM mergeInto groups = .ok groups') :
    groups'.map (·.id) = withNew (fun x => x) (groups.map (·.id)) (topics.map (·.id)) := by
  induction topics generalizing groups with
  | nil =>
    cases h
    simp
  | cons t topics ih =>
    obtain ⟨mid, hmid, hrest⟩ := foldlM_cons_eq_ok_iff.1 h
    rw [ih hrest, map_id_mergeInto hmid, ← withNew_append]
    rfl

end Topic

/-! ### Source order -/

section Stable

variable {α : Type} {before : α → α → Bool} {p : α → Bool}

theorem filter_insertBy (hp : ∀ x y, p x = true → p y = true → ¬before y x = true) (x : α)
    (ys : List α) : (insertBy before x ys).filter p = (x :: ys).filter p := by
  induction ys with
  | nil => rfl
  | cons y ys ih =>
    rw [insertBy]
    split
    · rename_i hyx
      -- of two items that change places at most one is looked at
      by_cases hx : p x = true
      · have hy : ¬p y = true := fun hy => hp x y hx hy hyx
        rw [List.filter_cons_of_neg hy, ih, List.filter_cons_of_pos hx,
          List.filter_cons_of_pos hx, List.filter_cons_of_neg hy]
      · rw [List.filter_cons_of_neg hx, List.filter_cons, List.filter_cons, ih,
          List.filter_cons_of_neg hx]
    · rfl

/-- Items that the order does not tell apart stay in the order they had. -/
theorem filter_sortBy (hp : ∀ x y, p x = true → p y = true → ¬before y x = true) (xs : List α) :
    (sortBy before xs).filter p = xs.filter p := by
  induction xs with
  | nil => rfl
  | cons x xs ih => rw [sortBy, filter_insertBy hp, List.filter_cons, List.filter_cons, ih]

end Stable

namespace Topic

/-- The topics by place; those of one place keep the order they had. -/
structure IsStableSort (topics sorted : List Topic) : Prop where
  perm : sorted.Perm topics
  ordered : sorted.Pairwise fun t u => ¬u.place.before t.place = true
  stable : ∀ p, (sorted.filter fun t => t.place = p) = topics.filter fun t => t.place = p

theorem isStableSort_inSourceOrder (topics : List Topic) :
    IsStableSort topics (inSourceOrder topics) := by
  refine ⟨perm_sortBy _ topics, pairwise_inSourceOrder topics, fun p => filter_sortBy ?_ topics⟩
  intro t u ht hu
  rw [of_decide_eq_true ht, of_decide_eq_true hu, Place.before_iff]
  omega

/-! ### Conflicts -/

theorem pos_extendWith {t later t' : Topic} (h : t.extendWith later = .ok t') :
    t'.pos = t.pos ∨ t'.pos = later.pos := by
  unfold extendWith at h
  split at h
  · cases h
    dsimp only
    split
    · exact .inr rfl
    · exact .inl rfl
  · cases h

theorem mergeInto_eq_error {groups : List Topic} {t : Topic} {e : Failure}
    (h : mergeInto groups t = .error e) :
    ∃ g ∈ groups, g.id = t.id ∧ g.docType ≠ t.docType ∧
      e = .docTypeConflict g.id g.docType g.pos t.docType t.pos := by
  induction groups with
  | nil => cases h
  | cons g groups ih =>
    simp only [mergeInto] at h
    split at h
    · rename_i hid
      have hextend := map_eq_error_iff.1 h
      unfold extendWith at hextend
      split at hextend
      · cases hextend
      · rename_i htype
        cases hextend
        exact ⟨g, List.mem_cons_self, hid, htype, rfl⟩
    · obtain ⟨g', hg', hrest⟩ := ih (map_eq_error_iff.1 h)
      exact ⟨g', List.mem_cons_of_mem g hg', hrest⟩

/-- Every group has the identifier, the type and the position of one of the topics. -/
def DrawnFrom (topics groups : List Topic) : Prop :=
  ∀ g ∈ groups, ∃ t ∈ topics, t.id = g.id ∧ t.docType = g.docType ∧ t.pos = g.pos

theorem DrawnFrom.mergeInto {topics groups groups' : List Topic} {t : Topic}
    (h : DrawnFrom topics groups) (ht : t ∈ topics) (hmerge : mergeInto groups t = .ok groups') :
    DrawnFrom topics groups' := by
  obtain ⟨rfl, -⟩ | ⟨front, g, back, g', rfl, hid, hextend, rfl⟩ := mergeInto_eq_ok hmerge
  · intro x hx
    rcases List.mem_append.1 hx with hx | hx
    · exact h x hx
    · exact ⟨t, ht, by simp [List.mem_singleton.1 hx]⟩
  · intro x hx
    by_cases hxg : x = g'
    · obtain ⟨htype, htype'⟩ := docType_extendWith hextend
      rw [hxg, id_extendWith hextend, htype']
      rcases pos_extendWith hextend with hpos | hpos
      · rw [hpos]
        exact h g (by simp)
      · exact ⟨t, ht, hid.symm, htype.symm, hpos.symm⟩
    · refine h x ?_
      simp only [List.mem_append, List.mem_cons] at hx ⊢
      tauto

/-- A failure names two topics of one identifier that are of different types. -/
theorem exists_conflict_of_merge {topics : List Topic} {e : Failure}
    (h : merge topics = .error e) :
    ∃ t ∈ topics, ∃ u ∈ topics, t.id = u.id ∧ t.docType ≠ u.docType ∧
      e = .docTypeConflict t.id t.docType t.pos u.docType u.pos := by
  have hstep : ∀ t ∈ inSourceOrder topics, ∀ groups groups', DrawnFrom topics groups →
      mergeInto groups t = .ok groups' → DrawnFrom topics groups' :=
    fun t ht groups groups' hdrawn => hdrawn.mergeInto (mem_inSourceOrder.1 ht)
  have hstart : DrawnFrom topics [] := by simp [DrawnFrom]
  obtain ⟨u, hu, groups, hdrawn, hfail⟩ := exists_reached_of_foldlM_eq_error hstep hstart h
  obtain ⟨g, hg, hid, htype, rfl⟩ := mergeInto_eq_error hfail
  obtain ⟨t, ht, htid, httype, htpos⟩ := hdrawn g hg
  exact ⟨t, ht, u, mem_inSourceOrder.1 hu, htid.trans hid, httype ▸ htype, by
    rw [htid, httype, htpos]⟩

/-! ### Merging -/

/-- Merging fails exactly if two topics of one identifier are of different documentation types, and
the failure names such a pair. Otherwise it gives one topic per identifier, in the order in which
the identifiers come up when the topics are sorted by place, and each is the sum of the topics of
its identifier and stands where the first of them does. -/
theorem merge_eq_sums (topics : List Topic) :
    ((∃ id first firstPos second secondPos,
        merge topics = .error (.docTypeConflict id first firstPos second secondPos)) ↔
      ∃ t ∈ topics, ∃ u ∈ topics, t.id = u.id ∧ t.docType ≠ u.docType) ∧
    (∀ e, merge topics = .error e → ∃ t ∈ topics, ∃ u ∈ topics, t.id = u.id ∧
      t.docType ≠ u.docType ∧ e = .docTypeConflict t.id t.docType t.pos u.docType u.pos) ∧
    ((∀ t ∈ topics, ∀ u ∈ topics, t.id = u.id → t.docType = u.docType) →
      ∃ sorted groups, IsStableSort topics sorted ∧ merge topics = .ok groups ∧
        groups.map (·.id) = (sorted.map (·.id)).eraseDups ∧
        ∀ g ∈ groups, ∃ first rest,
          (sorted.filter fun t => t.id = g.id) = first :: rest ∧ g = first.sum rest ∧
            g.place = first.place ∧ g.pos = first.pos) := by
  refine ⟨⟨?_, ?_⟩, fun e => exists_conflict_of_merge, ?_⟩
  · rintro ⟨id, first, firstPos, second, secondPos, h⟩
    obtain ⟨t, ht, u, hu, hid, htype, -⟩ := exists_conflict_of_merge h
    exact ⟨t, ht, u, hu, hid, htype⟩
  · rintro ⟨t, ht, u, hu, hid, htype⟩
    cases hmerge : merge topics with
    | ok groups => exact absurd (exists_merge_iff.1 ⟨groups, hmerge⟩ t ht u hu hid) htype
    | error e =>
      obtain ⟨t', -, u', -, -, -, rfl⟩ := exists_conflict_of_merge hmerge
      exact ⟨_, _, _, _, _, rfl⟩
  · intro hagree
    obtain ⟨groups, hmerge⟩ := exists_merge_iff.2 hagree
    have hsort := isStableSort_inSourceOrder topics
    refine ⟨inSourceOrder topics, groups, hsort, hmerge, ?_, ?_⟩
    · rw [map_id_foldlM hmerge]
      exact withNew_self_nil _
    · intro g hg
      obtain ⟨first, rest, hmembers, rfl⟩ := ((groups_of_merge hmerge).adds g hg).eq_sum
      have hsorted := hsort.ordered.filter fun t => t.id = (first.sum rest).id
      rw [hmembers] at hsorted
      have hfirst := earliest_of_forall_not (List.pairwise_cons.1 hsorted).1
      exact ⟨first, rest, hmembers, rfl, by rw [sum, hfirst], by rw [sum, hfirst]⟩

/-- Two topics `f` with a topic `g` in between, not in source order. -/
def scattered : List Topic :=
  [{ id := "f", place := ⟨1, 4⟩, pos := ⟨"R/b.R", 4⟩, docType := .function,
     title := some ⟨"Set by a tag", true⟩, aliases := ["x", "y"] },
   { id := "g", place := ⟨0, 9⟩, pos := ⟨"R/a.R", 9⟩, docType := .data },
   { id := "f", place := ⟨0, 2⟩, pos := ⟨"R/a.R", 2⟩, docType := .function,
     title := some ⟨"First", false⟩, aliases := ["x"] }]

theorem merge_scattered :
    (∀ t ∈ scattered, ∀ u ∈ scattered, t.id = u.id → t.docType = u.docType) ∧
    ∃ sorted groups, IsStableSort scattered sorted ∧ merge scattered = .ok groups ∧
      groups.map (·.id) = (sorted.map (·.id)).eraseDups ∧
      (∀ g ∈ groups, ∃ first rest,
        (sorted.filter fun t => t.id = g.id) = first :: rest ∧ g = first.sum rest ∧
          g.place = first.place ∧ g.pos = first.pos) ∧
      groups.map (fun g => (g.id, g.pos.line, g.title, g.aliases)) =
        [("f", 2, some ⟨"Set by a tag", true⟩, ["x", "y"]), ("g", 9, none, [])] := by
  have hagree : ∀ t ∈ scattered, ∀ u ∈ scattered, t.id = u.id → t.docType = u.docType := by
    decide
  have heval : (merge scattered).toOption.map
      (fun groups => groups.map fun g => (g.id, g.pos.line, g.title, g.aliases)) =
        some [("f", 2, some ⟨"Set by a tag", true⟩, ["x", "y"]), ("g", 9, none, [])] := by
    decide
  obtain ⟨groups', hmerge', hfields⟩ := toOption_map_eq_some_iff.1 heval
  obtain ⟨sorted, groups, hsort, hmerge, hids, hsums⟩ := (merge_eq_sums scattered).2.2 hagree
  obtain rfl : groups = groups' := Except.ok.inj (hmerge.symm.trans hmerge')
  exact ⟨hagree, sorted, groups, hsort, hmerge, hids, hsums, hfields⟩

end Topic

end DocTopics
