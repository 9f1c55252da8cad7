import DocTopics.Manual.Basic
import DocTopics.Proofs.MarkerRuns
import DocTopics.Proofs.TagReading
import Mathlib.Data.List.Pairwise
import Mathlib.Data.List.Sort

/-!
# Blocks in source order

The blocks of a run come in strictly ascending order of their places. Merging sorts topics by place,
so it gives the same result for every order in which the topics of single blocks are handed to it.

## Main statements

- `Inputs.mem_blocks_iff` — where a block comes from
- `Inputs.pairwise_blocks` — places ascend strictly
- `Topic.inSourceOrder_eq_of_perm` — sorting undoes every permutation of topics at distinct places
- `merge_blockTopics_perm` — merging does not see the order of its input
-/

namespace DocTopics

/-! ### Places -/

theorem Place.before_iff {a b : Place} :
    a.before b = true ↔ a.unit < b.unit ∨ (a.unit = b.unit ∧ a.line < b.line) := by
  simp [before]

theorem Place.before_asymm {a b : Place} (h : a.before b = true) : ¬b.before a = true := by
  rw [before_iff] at h ⊢
  omega

/-- The order of places is total, so what is not before stays so along a chain. -/
theorem Place.not_before_trans {a b c : Place} (hab : ¬b.before a = true)
    (hbc : ¬c.before b = true) : ¬c.before a = true := by
  rw [before_iff] at hab hbc ⊢
  omega

/-! ### Blocks of a unit -/

theorem MarkerRun.block?_finding (unit : SourceUnit) (ordinal : Nat) (marker : String)
    (r : MarkerRun) :
    (r.finding unit ordinal marker).block? =
      (declarationBelow marker r.next r.below).map fun d =>
        ⟨unit.id, ⟨ordinal, r.first.number⟩, r.lines, d⟩ := by
  rw [finding]
  split
  · rename_i d hd
    rw [hd]
    rfl
  · rename_i hd
    rw [hd]
    rfl

theorem Block.mem_ofUnit_iff {unit : SourceUnit} {ordinal : Nat} {marker : String} {b : Block} :
    b ∈ Block.ofUnit unit ordinal marker ↔
      ∃ r ∈ markerRuns marker 1 (Text.lines unit.text),
        ∃ d, declarationBelow marker r.next r.below = some d ∧
          ⟨unit.id, ⟨ordinal, r.first.number⟩, r.lines, d⟩ = b := by
  simp only [ofUnit, findings_eq_map, List.filterMap_map, List.mem_filterMap, Function.comp_apply,
    MarkerRun.block?_finding, Option.map_eq_some_iff]

theorem Block.unit_of_mem_ofUnit {unit : SourceUnit} {ordinal : Nat} {marker : String} {b : Block}
    (h : b ∈ Block.ofUnit unit ordinal marker) : b.unit = unit.id ∧ b.place.unit = ordinal := by
  obtain ⟨r, -, d, -, rfl⟩ := mem_ofUnit_iff.1 h
  exact ⟨rfl, rfl⟩

/-- Within a unit, a block and the declaration it is bound to stand above the next block. -/
theorem Block.pairwise_ofUnit (unit : SourceUnit) (ordinal : Nat) (marker : String) :
    (Block.ofUnit unit ordinal marker).Pairwise fun b b' =>
      b.place.line < b'.place.line ∧ b.declaration.line < b'.place.line := by
  rw [ofUnit, findings_eq_map, List.filterMap_map, List.pairwise_filterMap]
  refine (pairwise_markerRuns marker 1 (Text.lines unit.text)).imp ?_
  intro r s hrs b hb b' hb'
  rw [Function.comp_apply, MarkerRun.block?_finding, Option.map_eq_some_iff] at hb hb'
  obtain ⟨d, hd, rfl⟩ := hb
  obtain ⟨d', -, rfl⟩ := hb'
  exact ⟨hrs.1, hrs.2 d hd⟩

theorem Block.line_lt_of_mem_ofUnit {unit : SourceUnit} {ordinal : Nat} {marker : String}
    {b : Block} (h : b ∈ Block.ofUnit unit ordinal marker) : b.place.line < b.declaration.line := by
  obtain ⟨r, hr, d, hd, rfl⟩ := mem_ofUnit_iff.1 h
  have hlt := (isMaximal_of_mem_markerRuns hr).first_lt_next
  exact Nat.lt_of_lt_of_le hlt (line_declarationBelow hd).1

theorem Topic.place_ofComment {b : Block} {c : Comment} {ctx : PackageContext} {t : Topic}
    (h : Topic.ofComment b c ctx = some t) : t.place = b.place ∧ t.subjects = [subject b c ctx] := by
  obtain ⟨name, -, rfl⟩ := Option.map_eq_some_iff.1 h
  rw [Topic.ofSubject_eq]
  exact ⟨rfl, rfl⟩

/-! ### Blocks of a run -/

theorem numbered_eq_zipIdx {α : Type} (xs : List α) : numbered xs = xs.zipIdx := by
  rw [numbered, List.range_eq_range', List.zipIdx_eq_zip_range']

theorem pairwise_numbered {α : Type} (xs : List α) :
    (numbered xs).Pairwise fun x y => x.2 < y.2 := by
  have hrange : ((numbered xs).map Prod.snd).Pairwise (· < ·) := by
    rw [numbered_eq_zipIdx, List.zipIdx_map_snd]
    exact List.pairwise_lt_range'
  exact List.pairwise_map.1 hrange

namespace Inputs

theorem mem_blocks_iff {inputs : Inputs} {b : Block} {c : Comment} :
    (b, c) ∈ inputs.blocks ↔
      ∃ unit ordinal, inputs.units[ordinal]? = some unit ∧
        b ∈ Block.ofUnit unit ordinal inputs.options.marker ∧ c = Comment.ofBlock b := by
  simp only [blocks, parsed, ParsedUnit.of, numbered_eq_zipIdx, List.flatMap_map, List.mem_flatMap,
    List.mem_map, Prod.exists, List.mk_mem_zipIdx_iff_getElem?, Prod.mk.injEq]
  refine exists_congr fun unit => exists_congr fun ordinal => and_congr_right fun _ => ?_
  constructor
  · rintro ⟨b', hb', rfl, rfl⟩
    exact ⟨hb', rfl⟩
  · rintro ⟨hb, rfl⟩
    exact ⟨b, hb, rfl, rfl⟩

theorem pairwise_blocks (inputs : Inputs) :
    inputs.blocks.Pairwise fun x y => x.1.place.before y.1.place = true := by
  simp only [blocks, parsed, ParsedUnit.of, List.flatMap_map, List.pairwise_flatMap,
    List.pairwise_map, List.forall_mem_map]
  constructor
  · intro x _
    refine (Block.pairwise_ofUnit x.1 x.2 _).imp_of_mem ?_
    intro b b' hb hb' hlt
    rw [Place.before_iff, (Block.unit_of_mem_ofUnit hb).2, (Block.unit_of_mem_ofUnit hb').2]
    exact .inr ⟨rfl, hlt.1⟩
  · refine (pairwise_numbered inputs.units).imp ?_
    intro x y hxy b hb b' hb'
    rw [Place.before_iff, (Block.unit_of_mem_ofUnit hb).2, (Block.unit_of_mem_ofUnit hb').2]
    exact .inl hxy

theorem pairwise_blockTopics (inputs : Inputs) :
    inputs.blockTopics.Pairwise fun t u => t.place.before u.place = true := by
  rw [blockTopics, List.pairwise_filterMap]
  refine inputs.pairwise_blocks.imp ?_
  intro x y hxy t ht u hu
  rw [(Topic.place_ofComment ht).1, (Topic.place_ofComment hu).1]
  exact hxy

end Inputs

/-! ### Merging -/

theorem insertBy_eq_orderedInsert {α : Type} (before : α → α → Bool) (x : α) (xs : List α) :
    insertBy before x xs = xs.orderedInsert (fun a b => ¬before b a = true) x := by
  induction xs with
  | nil => rfl
  | cons y ys ih =>
    rw [insertBy, List.orderedInsert_cons, ih]
    by_cases h : before y x = true
    · rw [if_pos h, if_neg (not_not_intro h)]
    · rw [if_neg h, if_pos h]

theorem sortBy_eq_insertionSort {α : Type} (before : α → α → Bool) (xs : List α) :
    sortBy before xs = xs.insertionSort fun a b => ¬before b a = true := by
  induction xs with
  | nil => rfl
  | cons x xs ih => rw [sortBy, ih, insertBy_eq_orderedInsert, List.insertionSort_cons]

/-- Sorting by a strict order in which incomparable items can be exchanged leaves no item behind a
later one. -/
theorem pairwise_sortBy {α : Type} (before : α → α → Bool)
    (hasymm : ∀ a b, before a b = true → ¬before b a = true)
    (htrans : ∀ a b c, ¬before b a = true → ¬before c b = true → ¬before c a = true)
    (xs : List α) : (sortBy before xs).Pairwise fun a b => ¬before b a = true := by
  let notAfter : α → α → Prop := fun a b => ¬before b a = true
  have htotal : Std.Total notAfter := by
    refine ⟨fun a b => ?_⟩
    by_cases h : before b a = true
    · exact .inr (hasymm b a h)
    · exact .inl h
  have hnotAfter : IsTrans α notAfter := ⟨htrans⟩
  rw [sortBy_eq_insertionSort]
  exact List.pairwise_insertionSort notAfter xs

namespace Topic

/-- Sorting by place leaves no topic behind a later one. -/
theorem pairwise_inSourceOrder (topics : List Topic) :
    (inSourceOrder topics).Pairwise fun t u => ¬u.place.before t.place = true :=
  pairwise_sortBy (fun t u => t.place.before u.place) (fun _ _ => Place.before_asymm)
    (fun _ _ _ => Place.not_before_trans) topics

/-- Sorting by place undoes every permutation of topics that stand at different places. -/
theorem inSourceOrder_eq_of_perm {topics topics' : List Topic}
    (hsorted : topics.Pairwise fun t u => t.place.before u.place = true)
    (hperm : topics'.Perm topics) : inSourceOrder topics' = topics := by
  -- two topics of the list that are not told apart by their places are the same one
  have hantisymm : ∀ t u, t ∈ topics → u ∈ topics → ¬u.place.before t.place = true →
      ¬t.place.before u.place = true → t = u := by
    intro t u ht hu htu hut
    by_contra hne
    let ordered : Topic → Topic → Prop := fun t u =>
      t.place.before u.place = true ∨ u.place.before t.place = true
    have hsymm : Std.Symm ordered := ⟨fun _ _ => Or.symm⟩
    have hordered : topics.Pairwise ordered := hsorted.imp .inl
    exact (hordered.forall ht hu hne).elim hut htu
  have hmem : ∀ t, t ∈ inSourceOrder topics' → t ∈ topics :=
    fun t ht => hperm.mem_iff.1 (mem_sortBy.1 ht)
  refine List.Perm.eq_of_pairwise (fun t u ht hu => hantisymm t u (hmem t ht) hu)
    (pairwise_inSourceOrder topics') (hsorted.imp Place.before_asymm) ?_
  exact (perm_sortBy _ topics').trans hperm

end Topic

/-- The topics of single blocks come in strictly ascending order of their places, which are the
ordinal of the unit and the first line of the block. So merging them gives the same result, or the
same failure, in whatever order they are handed over. -/
theorem merge_blockTopics_perm (inputs : Inputs) :
    inputs.blockTopics.Pairwise (fun t u => t.place.before u.place = true) ∧
    (∀ t ∈ inputs.blockTopics, ∃ unit b, inputs.units[t.place.unit]? = some unit ∧
      b ∈ Block.ofUnit unit t.place.unit inputs.options.marker ∧
      b.lines.head?.map (·.number) = some t.place.line ∧
      Topic.ofComment b (Comment.ofBlock b) inputs.context = some t) ∧
    ∀ topics, topics.Perm inputs.blockTopics →
      Topic.merge topics = Topic.merge inputs.blockTopics := by
  refine ⟨inputs.pairwise_blockTopics, ?_, ?_⟩
  · intro t ht
    obtain ⟨⟨b, c⟩, hblock, htopic⟩ := List.mem_filterMap.1 ht
    obtain ⟨unit, ordinal, hunit, hb, rfl⟩ := Inputs.mem_blocks_iff.1 hblock
    obtain ⟨r, -, d, -, rfl⟩ := Block.mem_ofUnit_iff.1 hb
    have hplace := (Topic.place_ofComment htopic).1
    rw [hplace]
    exact ⟨unit, _, hunit, hb, rfl, htopic⟩
  · intro topics hperm
    have hsorted := inputs.pairwise_blockTopics
    rw [Topic.merge, Topic.inSourceOrder_eq_of_perm hsorted hperm, Topic.merge,
      Topic.inSourceOrder_eq_of_perm hsorted (.refl _)]

end DocTopics
