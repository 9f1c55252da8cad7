import DocTopics.Proofs.Lines
import DocTopics.Proofs.TopicSums
import DocTopics.Proofs.Trimming

/-!
# The title of a group

A comment without a title of its own is titled by its description. When such a comment is merged
with others, its title counts like one from a preamble: a title tag beats it, and so does any title
in front of it, but not a title behind it. So a group has the title that one of its comments spells,
unless no comment has a title tag and the first comment that is titled at all only has a
description.

## Main definitions

- `commentsInOrder` — the comments of blocks, in source order
- `LeadsWithDescription` — the description of a comment becomes the title of its group

## Main statements

- `paragraphs_eq_nil_iff` — only blank texts have no paragraphs
- `Comment.title_cases` — where the title of a comment comes from
- `merged_title` — where the title of a group comes from
-/

namespace DocTopics

/-! ### Blank texts -/

theorem paragraphGroups_eq_nil_iff {ls : List String} :
    paragraphGroups ls = [] ↔ ∀ l ∈ ls, Text.blank l = true := by
  induction ls with
  | nil => simp [paragraphGroups]
  | cons line rest ih =>
    rw [paragraphGroups.eq_def]
    by_cases hline : Text.blank line = true
    · simp [hline, ih]
    · simp only [hline, Bool.false_eq_true, if_false, List.forall_mem_cons, false_and, iff_false]
      split
      · simp
      · split
        · simp
        · split <;> simp

/-- Only a blank text has no paragraphs. -/
theorem paragraphs_eq_nil_iff {text : String} : paragraphs text = [] ↔ Text.blank text = true := by
  rw [paragraphs, List.map_eq_nil_iff, paragraphGroups_eq_nil_iff, Text.lines, List.forall_mem_map,
    Text.blank, ← Chars.forall_blank_lines_iff]
  simp only [Text.blank, String.toList_ofList]

/-! ### The title of a comment -/

namespace Comment

/-- A tag sets a text unless the last one of its name is blank. -/
theorem isSome_explicitPassage_iff {c : Comment} {name : String} :
    (c.explicitPassage name).isSome = true ↔
      ∃ t, c.last? name = some t ∧ Text.blank t.content = false := by
  rw [explicitPassage]
  cases c.last? name with
  | none => simp
  | some t =>
    by_cases hblank : Text.blank t.content = true
    · simp [Text.nonempty, Text.trim_eq_empty_iff.2 hblank, hblank]
    · have hne : Text.trim t.content ≠ "" := fun h => hblank (Text.trim_eq_empty_iff.1 h)
      simp [Text.nonempty, hne, hblank]

theorem explicit_of_explicitPassage {c : Comment} {name : String} {p : Passage}
    (h : c.explicitPassage name = some p) : p.explicit = true := by
  obtain ⟨t, -, ht⟩ := Option.bind_eq_some_iff.1 h
  obtain ⟨text, -, rfl⟩ := Option.map_eq_some_iff.1 ht
  rfl

/-- A comment spells a title if its preamble or its last title tag is not blank. -/
theorem isSome_ownTitle_iff {c : Comment} :
    c.ownTitle.isSome = true ↔ Text.blank c.preamble = false ∨
      ∃ t, c.last? "title" = some t ∧ Text.blank t.content = false := by
  rw [← isSome_explicitPassage_iff, ownTitle, ← Bool.not_eq_true, ← paragraphs_eq_nil_iff]
  cases c.explicitPassage "title" with
  | some p => simp
  | none => cases paragraphs c.preamble <;> simp

/-- The title is that of a tag, the first paragraph, or else the text of the description. -/
theorem title_cases (c : Comment) :
    (∃ p, c.explicitPassage "title" = some p ∧ p.explicit = true ∧ c.ownTitle = some p ∧
      c.title = some p) ∨
    (c.explicitPassage "title" = none ∧
      ∃ p, p.explicit = false ∧ c.ownTitle = some p ∧ c.title = some p) ∨
    (c.explicitPassage "title" = none ∧ c.ownTitle = none ∧
      c.title = c.description.map fun field => { text := field.text }) := by
  cases htag : c.explicitPassage "title" with
  | some p =>
    exact .inl ⟨p, rfl, explicit_of_explicitPassage htag, by simp [ownTitle, htag],
      by simp [title, ownTitle, htag]⟩
  | none =>
    cases hfirst : (paragraphs c.preamble)[0]? with
    | some text =>
      exact .inr (.inl ⟨rfl, { text := text }, rfl, by simp [ownTitle, htag, hfirst],
        by simp [title, ownTitle, htag, hfirst]⟩)
    | none =>
      exact .inr (.inr ⟨rfl, by simp [ownTitle, htag, hfirst],
        by simp [title, ownTitle, htag, hfirst]⟩)

/-- A title that a tag set is that of the title tag. -/
theorem explicitPassage_of_title {c : Comment} {p : Passage} (h : c.title = some p)
    (hp : p.explicit = true) : c.explicitPassage "title" = some p ∧ c.ownTitle = some p := by
  rcases c.title_cases with ⟨q, htag, -, hown, htitle⟩ | ⟨-, q, hq, -, htitle⟩ | ⟨-, -, htitle⟩
  · obtain rfl : q = p := Option.some_inj.1 (htitle.symm.trans h)
    exact ⟨htag, hown⟩
  · obtain rfl : q = p := Option.some_inj.1 (htitle.symm.trans h)
    rw [hq] at hp
    cases hp
  · obtain ⟨field, -, rfl⟩ := Option.map_eq_some_iff.1 (htitle.symm.trans h)
    cases hp

theorem title_of_ownTitle {c : Comment} {p : Passage} (h : c.ownTitle = some p) :
    c.title = some p := by
  rw [title, h]
  rfl

end Comment

/-! ### The title of several comments -/

/-- No comment has a title tag, and `c` is the first that is titled at all, by its description. -/
def LeadsWithDescription (comments : List Comment) (c : Comment) : Prop :=
  (∀ x ∈ comments, x.explicitPassage "title" = none) ∧
    comments.find? (fun x => x.title.isSome) = some c ∧ c.ownTitle = none

instance (comments : List Comment) (c : Comment) : Decidable (LeadsWithDescription comments c) :=
  inferInstanceAs (Decidable (_ ∧ _))

theorem findSome?_eq_bind_find? {α β : Type} (f : α → Option β) (xs : List α) :
    xs.findSome? f = (xs.find? fun x => (f x).isSome).bind f := by
  induction xs with
  | nil => rfl
  | cons x xs ih => cases hx : f x <;> simp [hx, ih]

section Chosen

variable {comments : List Comment}

/-- Where there are title tags, one of them is chosen. -/
theorem exists_chosen_of_tag {c : Comment} {p : Passage} (hc : c ∈ comments)
    (hp : c.explicitPassage "title" = some p) :
    ∃ d ∈ comments, ∃ q, d.ownTitle = some q ∧
      Passage.chosen (comments.filterMap Comment.title) = some q := by
  have hne : (comments.filterMap Comment.title).filter (·.explicit) ≠ [] := by
    have hmem : p ∈ comments.filterMap Comment.title := by
      rcases c.title_cases with ⟨q, htag, -, -, htitle⟩ | ⟨htag, -⟩ | ⟨htag, -⟩
      · obtain rfl : q = p := Option.some_inj.1 (htag.symm.trans hp)
        exact List.mem_filterMap.2 ⟨c, hc, htitle⟩
      · cases htag.symm.trans hp
      · cases htag.symm.trans hp
    exact List.ne_nil_of_mem (List.mem_filter.2 ⟨hmem, Comment.explicit_of_explicitPassage hp⟩)
  -- the last title that a tag set wins; its comment need not be `c`
  have hlast := List.getLast?_eq_some_getLast hne
  obtain ⟨hmem, hexplicit⟩ := List.mem_filter.1 (List.getLast_mem hne)
  obtain ⟨d, hd, htitle⟩ := List.mem_filterMap.1 hmem
  refine ⟨d, hd, _, (Comment.explicitPassage_of_title htitle hexplicit).2, ?_⟩
  rw [Passage.chosen, hlast, Option.some_or]

/-- Without title tags the first title is chosen. -/
theorem chosen_of_no_tag (h : ∀ c ∈ comments, c.explicitPassage "title" = none) :
    Passage.chosen (comments.filterMap Comment.title) =
      (comments.find? fun c => c.title.isSome).bind Comment.title := by
  have hnone : (comments.filterMap Comment.title).filter (·.explicit) = [] := by
    rw [List.filter_eq_nil_iff]
    intro p hp hexplicit
    obtain ⟨c, hc, htitle⟩ := List.mem_filterMap.1 hp
    cases (h c hc).symm.trans (Comment.explicitPassage_of_title htitle hexplicit).1
  rw [Passage.chosen, hnone, List.getLast?_nil, Option.none_or, List.head?_filterMap,
    findSome?_eq_bind_find?]

/-- A group whose first title is a description has the text of that description for a title. -/
theorem LeadsWithDescription.chosen {c : Comment} (h : LeadsWithDescription comments c) :
    ∃ field, c.description = some field ∧
      Passage.chosen (comments.filterMap Comment.title) = some { text := field.text } := by
  obtain ⟨htags, hfirst, hown⟩ := h
  rcases c.title_cases with ⟨p, -, -, htitle, -⟩ | ⟨-, p, -, htitle, -⟩ | ⟨-, -, htitle⟩
  · cases hown.symm.trans htitle
  · cases hown.symm.trans htitle
  · have htitled : c.title.isSome = true := by simpa using List.find?_some hfirst
    obtain ⟨p, hp⟩ := Option.isSome_iff_exists.1 htitled
    obtain ⟨field, hfield, -⟩ := Option.map_eq_some_iff.1 (htitle.symm.trans hp)
    refine ⟨field, hfield, ?_⟩
    rw [chosen_of_no_tag htags, hfirst, Option.bind_some, htitle, hfield, Option.map_some]

/-- Any other group with a comment that spells a title has such a title. -/
theorem exists_chosen_of_not_leads (hown : ∃ c ∈ comments, c.ownTitle.isSome = true)
    (h : ∀ c ∈ comments, ¬LeadsWithDescription comments c) :
    ∃ c ∈ comments, ∃ p, c.ownTitle = some p ∧
      Passage.chosen (comments.filterMap Comment.title) = some p := by
  by_cases htags : ∀ c ∈ comments, c.explicitPassage "title" = none
  · -- the first titled comment decides, and it spells its title or leads with a description
    obtain ⟨c, hc, hsome⟩ := hown
    obtain ⟨p, hp⟩ := Option.isSome_iff_exists.1 hsome
    have htitled : (comments.find? fun x => x.title.isSome).isSome = true :=
      List.find?_isSome.2 ⟨c, hc, by rw [Comment.title_of_ownTitle hp]; rfl⟩
    obtain ⟨d, hfirst⟩ := Option.isSome_iff_exists.1 htitled
    have hd : d ∈ comments := List.mem_of_find?_eq_some hfirst
    cases hownd : d.ownTitle with
    | none => exact absurd ⟨htags, hfirst, hownd⟩ (h d hd)
    | some q =>
      refine ⟨d, hd, q, hownd, ?_⟩
      rw [chosen_of_no_tag htags, hfirst, Option.bind_some, Comment.title_of_ownTitle hownd]
  · simp only [not_forall] at htags
    obtain ⟨c, hc, hne⟩ := htags
    obtain ⟨p, hp⟩ := Option.ne_none_iff_exists'.1 hne
    exact exists_chosen_of_tag hc hp

end Chosen

/-! ### Blocks and their topics in step -/

section InStep

variable {α β : Type} {R : α → β → Prop} {before : α → α → Bool} {before' : β → β → Bool}

theorem forall₂_insertBy
    (hbefore : ∀ x y x' y', R x y → R x' y' → before x x' = before' y y') {x : α} {y : β}
    (hxy : R x y) {xs : List α} {ys : List β} (h : List.Forall₂ R xs ys) :
    List.Forall₂ R (insertBy before x xs) (insertBy before' y ys) := by
  induction h with
  | nil => exact .cons hxy .nil
  | cons hab htail ih =>
    simp only [insertBy, hbefore _ _ _ _ hab hxy]
    split
    · exact .cons hab ih
    · exact .cons hxy (.cons hab htail)

/-- Lists whose items are ordered alike are sorted alike. -/
theorem forall₂_sortBy
    (hbefore : ∀ x y x' y', R x y → R x' y' → before x x' = before' y y')
    {xs : List α} {ys : List β} (h : List.Forall₂ R xs ys) :
    List.Forall₂ R (sortBy before xs) (sortBy before' ys) := by
  induction h with
  | nil => exact .nil
  | cons hxy _ ih => exact forall₂_insertBy hbefore hxy ih

theorem filterMap_eq_of_forall₂ {γ : Type} {f : α → Option γ} {g : β → Option γ}
    (hfg : ∀ x y, R x y → f x = g y) {xs : List α} {ys : List β} (h : List.Forall₂ R xs ys) :
    xs.filterMap f = ys.filterMap g := by
  induction h with
  | nil => rfl
  | cons hxy _ ih => rw [List.filterMap_cons, List.filterMap_cons, hfg _ _ hxy, ih]

end InStep

/-- The comments of blocks in source order; those of one place keep the order they had. -/
def commentsInOrder (members : List (Block × Comment)) : List Comment :=
  (sortBy (fun m n => m.1.place.before n.1.place) members).map (·.2)

theorem mem_commentsInOrder {members : List (Block × Comment)} {c : Comment} :
    c ∈ commentsInOrder members ↔ ∃ m ∈ members, m.2 = c := by
  simp [commentsInOrder]

theorem filterMap_title_inSourceOrder {ctx : PackageContext} {members : List (Block × Comment)}
    {topics : List Topic}
    (h : List.Forall₂ (fun m t => Topic.ofComment m.1 m.2 ctx = some t) members topics) :
    (Topic.inSourceOrder topics).filterMap (·.title) =
      (commentsInOrder members).filterMap Comment.title := by
  have hsorted : List.Forall₂ (fun m t => Topic.ofComment m.1 m.2 ctx = some t)
      (sortBy (fun m n => m.1.place.before n.1.place) members) (Topic.inSourceOrder topics) := by
    refine forall₂_sortBy (fun m t n u hm hn => ?_) h
    rw [(Topic.place_ofComment hm).1, (Topic.place_ofComment hn).1]
  rw [commentsInOrder, List.filterMap_map]
  refine (filterMap_eq_of_forall₂ (fun m t hbuilt => ?_) hsorted).symm
  obtain ⟨name, -, rfl⟩ := Option.map_eq_some_iff.1 hbuilt
  rw [Topic.ofSubject_eq]
  rfl

/-! ### Groups -/

/-- Topics of one identifier and one type are merged to their sum. -/
theorem Topic.exists_merge_eq_singleton {topics : List Topic} (hne : topics ≠ [])
    (h : ∀ t ∈ topics, ∀ u ∈ topics, t.id = u.id ∧ t.docType = u.docType) :
    ∃ first rest, inSourceOrder topics = first :: rest ∧ merge topics = .ok [first.sum rest] := by
  obtain ⟨groups, hmerge⟩ := exists_merge_iff.2 fun t ht u hu _ => (h t ht u hu).2
  have hgroups := groups_of_merge hmerge
  have hids : ∀ g ∈ groups, ∀ t ∈ inSourceOrder topics, t.id = g.id := by
    intro g hg t ht
    obtain ⟨u, hu, hid⟩ := hgroups.exists_mem hg
    rw [← hid]
    exact (h t (mem_inSourceOrder.1 ht) u (mem_inSourceOrder.1 hu)).1
  obtain ⟨t, ht⟩ := List.exists_mem_of_ne_nil topics hne
  have ht : t ∈ inSourceOrder topics := mem_inSourceOrder.2 ht
  rcases groups with _ | ⟨g, _ | ⟨g', more⟩⟩
  · obtain ⟨g, hg, -⟩ := hgroups.covers t ht
    cases hg
  · have hadds := hgroups.adds g List.mem_cons_self
    rw [List.filter_eq_self.2 fun t ht => decide_eq_true (hids g List.mem_cons_self t ht)] at hadds
    obtain ⟨first, rest, hmembers, rfl⟩ := hadds.eq_sum
    exact ⟨first, rest, hmembers, hmerge⟩
  · -- two groups would have one identifier
    have hnodup := hgroups.nodup
    rw [List.map_cons, List.map_cons, ← hids g (by simp) t ht, ← hids g' (by simp) t ht] at hnodup
    simp at hnodup

/-- The title of a group. Blocks whose topics are of one identifier and one type make one topic. If
one of their comments has a preamble or a title tag that is not blank, the title is the tag or the
first paragraph of one of them, except where the group leads with a description: where no comment
has a title tag, and the first one in source order that is titled at all has nothing but a
description, the title is the text of this description. -/
theorem merged_title {ctx : PackageContext} {members : List (Block × Comment)}
    {topics : List Topic}
    (hbuilt : List.Forall₂ (fun m t => Topic.ofComment m.1 m.2 ctx = some t) members topics)
    (hgroup : ∀ t ∈ topics, ∀ u ∈ topics, t.id = u.id ∧ t.docType = u.docType)
    (htitled : ∃ m ∈ members, Text.blank m.2.preamble = false ∨
      ∃ t, m.2.last? "title" = some t ∧ Text.blank t.content = false) :
    ∃ g, Topic.merge topics = .ok [g] ∧
      ((∀ c ∈ commentsInOrder members, ¬LeadsWithDescription (commentsInOrder members) c) →
        ∃ m ∈ members, ∃ p, m.2.ownTitle = some p ∧ g.title = some p) ∧
      ∀ c, LeadsWithDescription (commentsInOrder members) c →
        ∃ field, c.description = some field ∧ g.title = some { text := field.text } := by
  have hown : ∃ c ∈ commentsInOrder members, c.ownTitle.isSome = true := by
    obtain ⟨m, hm, htitle⟩ := htitled
    exact ⟨m.2, mem_commentsInOrder.2 ⟨m, hm, rfl⟩, Comment.isSome_ownTitle_iff.2 htitle⟩
  have hne : topics ≠ [] := by
    rintro rfl
    cases hbuilt
    obtain ⟨m, hm, -⟩ := htitled
    cases hm
  obtain ⟨first, rest, hmembers, hmerge⟩ := Topic.exists_merge_eq_singleton hne hgroup
  have htitle : (first.sum rest).title =
      Passage.chosen ((commentsInOrder members).filterMap Comment.title) := by
    rw [← filterMap_title_inSourceOrder hbuilt, hmembers]
    rfl
  refine ⟨first.sum rest, hmerge, fun hleads => ?_, fun c hleads => ?_⟩
  · obtain ⟨c, hc, p, hp, hchosen⟩ := exists_chosen_of_not_leads hown hleads
    obtain ⟨m, hm, rfl⟩ := mem_commentsInOrder.1 hc
    exact ⟨m, hm, p, hp, htitle.trans hchosen⟩
  · obtain ⟨field, hfield, hchosen⟩ := hleads.chosen
    exact ⟨field, hfield, htitle.trans hchosen⟩

/-- A function of the group `grp`; its comment starts at a line of the unit. -/
def grpMember (line : Nat) (name text : String) : Block × Comment :=
  let b : Block :=
    { unit := "R/grp.R", place := ⟨0, line⟩
      lines := [⟨line, text⟩, ⟨line + 1, "@rdname grp"⟩]
      declaration := { kind := .function, name := some name, line := line + 2 } }
  (b, Comment.ofBlock b)

/-- A comment with a description only, and one with a title. -/
def grpMembers (describedAt titledAt : Nat) : List (Block × Comment) :=
  [grpMember describedAt "g" "@description More detail for g.", grpMember titledAt "f" "Real title"]

def grpTopics (describedAt titledAt : Nat) : List Topic :=
  (grpMembers describedAt titledAt).map fun m => Topic.ofSubject m.1 m.2 (subject m.1 m.2 {})

theorem merged_title_grp_titleFirst :
    List.Forall₂ (fun m t => Topic.ofComment m.1 m.2 {} = some t) (grpMembers 5 1) (grpTopics 5 1) ∧
    (∀ t ∈ grpTopics 5 1, ∀ u ∈ grpTopics 5 1, t.id = u.id ∧ t.docType = u.docType) ∧
    (∃ m ∈ grpMembers 5 1, Text.blank m.2.preamble = false) ∧
    (∀ c ∈ commentsInOrder (grpMembers 5 1),
      ¬LeadsWithDescription (commentsInOrder (grpMembers 5 1)) c) ∧
    ∃ g, Topic.merge (grpTopics 5 1) = .ok [g] ∧ g.title = some { text := "Real title" } := by
  have hbuilt : List.Forall₂ (fun m t => Topic.ofComment m.1 m.2 {} = some t) (grpMembers 5 1)
      (grpTopics 5 1) := .cons rfl (.cons rfl .nil)
  have hgroup : ∀ t ∈ grpTopics 5 1, ∀ u ∈ grpTopics 5 1,
      t.id = u.id ∧ t.docType = u.docType := by decide
  have htitled : ∃ m ∈ grpMembers 5 1, Text.blank m.2.preamble = false := by decide
  have hleads : ∀ c ∈ commentsInOrder (grpMembers 5 1),
      ¬LeadsWithDescription (commentsInOrder (grpMembers 5 1)) c := by decide
  obtain ⟨m, hm, hblank⟩ := htitled
  obtain ⟨g, hmerge, htitle, -⟩ := merged_title hbuilt hgroup ⟨m, hm, .inl hblank⟩
  refine ⟨hbuilt, hgroup, ⟨m, hm, hblank⟩, hleads, g, hmerge, ?_⟩
  obtain ⟨n, hn, p, hp, hg⟩ := htitle hleads
  have hown : ∀ n ∈ grpMembers 5 1,
      n.2.ownTitle = none ∨ n.2.ownTitle = some { text := "Real title" } := by decide
  rcases hown n hn with hnone | hreal
  · cases hnone.symm.trans hp
  · rw [hg, ← hp, hreal]

/-- With the description in front the group is titled by it, and no comment spells such a title. -/
theorem exists_title_displaced :
    List.Forall₂ (fun m t => Topic.ofComment m.1 m.2 {} = some t) (grpMembers 1 5) (grpTopics 1 5) ∧
    (∀ t ∈ grpTopics 1 5, ∀ u ∈ grpTopics 1 5, t.id = u.id ∧ t.docType = u.docType) ∧
    (∃ m ∈ grpMembers 1 5, Text.blank m.2.preamble = false) ∧
    ∃ g, Topic.merge (grpTopics 1 5) = .ok [g] ∧ g.title = some { text := "More detail for g." } ∧
      ∀ m ∈ grpMembers 1 5, m.2.ownTitle ≠ g.title := by
  have heval : (Topic.merge (grpTopics 1 5)).toOption.map (fun groups => groups.map (·.title)) =
      some [some { text := "More detail for g." }] := by decide
  obtain ⟨groups, hmerge, htitles⟩ := toOption_map_eq_some_iff.1 heval
  obtain ⟨g, rfl, htitle⟩ := List.map_eq_singleton_iff.1 htitles
  refine ⟨.cons rfl (.cons rfl .nil), by decide, by decide, g, hmerge, htitle, ?_⟩
  rw [htitle]
  decide

end DocTopics
