import DocTopics.Proofs.Generation
import DocTopics.Proofs.SourceOrder
import Mathlib.Data.List.Flatten
import Mathlib.Data.List.Perm.Subperm

/-!
# Nothing that is documented gets lost

Every run of marker lines becomes a block or leaves a warning, every block becomes a topic or leaves
a diagnostic unless it only holds directives, and every topic of a block is merged into one topic of
the manual, which takes over its declaration.

## Main definitions

- `Inputs.topicOf`, `Inputs.subjectOf` — the topic of a block and the declaration it documents
- `Inputs.blocksFor` — the blocks that document one topic
- `Inputs.unboundRuns` — the runs of marker lines that became no block

## Main statements

- `Generated.subjects_eq` — the declarations of a topic, block by block
- `Inputs.unboundWarnings_sublist` — a warning for every unbound run
- `generate_covers_blocks` — no documented block is lost or duplicated
-/

namespace DocTopics

/-! ### Declarations of merged topics -/

namespace Topic

theorem subjects_extendWith {t later t' : Topic} (h : t.extendWith later = .ok t') :
    t'.subjects = t.subjects ++ later.subjects := by
  unfold extendWith at h
  split at h
  · cases h
    rfl
  · cases h

theorem subjects_foldlM {first g : Topic} {rest : List Topic}
    (h : rest.foldlM extendWith first = .ok g) :
    g.subjects = first.subjects ++ rest.flatMap (·.subjects) := by
  induction rest generalizing first with
  | nil =>
    cases h
    simp
  | cons later rest ih =>
    obtain ⟨mid, hmid, hrest⟩ := foldlM_cons_eq_ok_iff.1 h
    rw [ih hrest, subjects_extendWith hmid, List.flatMap_cons, List.append_assoc]

theorem AddsUpTo.subjects {members : List Topic} {g : Topic} (h : AddsUpTo members g) :
    g.subjects = members.flatMap (·.subjects) := by
  obtain ⟨first, rest, rfl, hfold⟩ := h
  rw [subjects_foldlM hfold, List.flatMap_cons]

/-- Adding one topic adds its declarations. -/
theorem perm_subjects_mergeInto {groups groups' : List Topic} {t : Topic}
    (h : mergeInto groups t = .ok groups') :
    (groups'.flatMap (·.subjects)).Perm (groups.flatMap (·.subjects) ++ t.subjects) := by
  rcases mergeInto_eq_ok h with ⟨rfl, -⟩ | ⟨front, g, back, g', rfl, -, hextend, rfl⟩
  · rw [List.flatMap_append, List.flatMap_singleton]
  · simp only [List.flatMap_append, List.flatMap_cons, subjects_extendWith hextend,
      List.append_assoc]
    exact (List.perm_append_comm.append_left _).append_left _

theorem perm_subjects_foldlM {groups groups' rest : List Topic}
    (h : rest.foldlM mergeInto groups = .ok groups') :
    (groups'.flatMap (·.subjects)).Perm
      (groups.flatMap (·.subjects) ++ rest.flatMap (·.subjects)) := by
  induction rest generalizing groups with
  | nil =>
    cases h
    simp
  | cons t rest ih =>
    obtain ⟨mid, hmid, hrest⟩ := foldlM_cons_eq_ok_iff.1 h
    rw [List.flatMap_cons, ← List.append_assoc]
    exact (ih hrest).trans ((perm_subjects_mergeInto hmid).append_right _)

/-- Merging neither loses nor doubles a declaration. -/
theorem perm_subjects_merge {topics merged : List Topic} (h : merge topics = .ok merged) :
    (merged.flatMap (·.subjects)).Perm (topics.flatMap (·.subjects)) := by
  refine (perm_subjects_foldlM h).trans ?_
  exact (perm_sortBy _ topics).flatMap_right _

end Topic

/-! ### Blocks and their topics -/

namespace Inputs

/-- The topic of a block, if it has one. -/
def topicOf (inputs : Inputs) (x : Block × Comment) : Option Topic :=
  Topic.ofComment x.1 x.2 inputs.context

/-- The declaration that a block documents. -/
def subjectOf (inputs : Inputs) (x : Block × Comment) : Subject :=
  subject x.1 x.2 inputs.context

/-- The blocks whose topic has an identifier, in source order. -/
def blocksFor (inputs : Inputs) (id : String) : List (Block × Comment) :=
  inputs.blocks.filter fun x => (inputs.topicOf x).any (·.id == id)

theorem flatMap_subjects_filter (inputs : Inputs) (p : Topic → Bool) :
    (inputs.blockTopics.filter p).flatMap (·.subjects) =
      (inputs.blocks.filter fun x => (inputs.topicOf x).any p).map inputs.subjectOf := by
  have hblocks : ∀ xs : List (Block × Comment),
      ((xs.filterMap inputs.topicOf).filter p).flatMap (·.subjects) =
        (xs.filter fun x => (inputs.topicOf x).any p).map inputs.subjectOf := by
    intro xs
    induction xs with
    | nil => rfl
    | cons x xs ih =>
      cases hx : inputs.topicOf x with
      | none => simp [hx, ih]
      | some t =>
        have hsubjects : t.subjects = [inputs.subjectOf x] := (Topic.place_ofComment hx).2
        by_cases hp : p t = true
        · simp [hx, hp, ih, hsubjects]
        · simp [hx, hp, ih]
  exact hblocks inputs.blocks

theorem flatMap_subjects_blockTopics (inputs : Inputs) :
    inputs.blockTopics.flatMap (·.subjects) =
      (inputs.blocks.filter fun x => (inputs.topicOf x).isSome).map inputs.subjectOf := by
  have hall := inputs.flatMap_subjects_filter fun _ => true
  rw [List.filter_true] at hall
  exact hall

theorem mem_blocksFor_iff {inputs : Inputs} {x : Block × Comment} {id : String} :
    x ∈ inputs.blocksFor id ↔ x ∈ inputs.blocks ∧ ∃ t, inputs.topicOf x = some t ∧ t.id = id := by
  rw [blocksFor, List.mem_filter, Option.any_eq_true]
  simp

end Inputs

namespace Generated

variable {inputs : Inputs} {merged : List Topic} {m : Manual}

theorem exists_merged (h : Generated inputs merged m) {t : Topic} (ht : t ∈ m.topics) :
    ∃ g ∈ merged, t.id = g.id ∧ t.subjects = g.subjects := by
  rw [h.topics, Topic.resolve, List.map_map, List.mem_map] at ht
  obtain ⟨g, hg, rfl⟩ := ht
  refine ⟨g, hg, ?_⟩
  simp only [Function.comp_apply, Topic.withShadowed]
  split
  · exact ⟨rfl, rfl⟩
  · exact ⟨rfl, rfl⟩

theorem perm_subjects (h : Generated inputs merged m) :
    (m.topics.flatMap (·.subjects)).Perm
      ((inputs.blocks.filter fun x => (inputs.topicOf x).isSome).map inputs.subjectOf) := by
  rw [h.topics, flatMap_withShadowed _ _ fun _ _ => rfl, flatMap_resolve _ fun _ _ _ => rfl,
    ← inputs.flatMap_subjects_blockTopics]
  exact Topic.perm_subjects_merge h.merge

/-- A topic of a manual documents what the blocks of its identifier document, in source order. -/
theorem subjects_eq (h : Generated inputs merged m) {t : Topic} (ht : t ∈ m.topics) :
    t.subjects = (inputs.blocksFor t.id).map inputs.subjectOf := by
  obtain ⟨g, hg, hid, hsubjects⟩ := h.exists_merged ht
  have hadds := (Topic.groups_of_merge h.merge).adds g hg
  rw [Topic.inSourceOrder_eq_of_perm inputs.pairwise_blockTopics (.refl _)] at hadds
  rw [hsubjects, hid, hadds.subjects, inputs.flatMap_subjects_filter]
  rfl

/-- A block with a topic belongs to exactly one topic of the manual. -/
theorem existsUnique_blocksFor (h : Generated inputs merged m) {x : Block × Comment} {t : Topic}
    (hx : x ∈ inputs.blocks) (ht : inputs.topicOf x = some t) :
    ∃! u, u ∈ m.topics ∧ x ∈ inputs.blocksFor u.id := by
  have hblock : t ∈ inputs.blockTopics := List.mem_filterMap.2 ⟨x, hx, ht⟩
  obtain ⟨g, hg, hgt⟩ :=
    (Topic.groups_of_merge h.merge).covers t (Topic.mem_inSourceOrder.2 hblock)
  have hid : t.id ∈ m.topics.map (·.id) := by
    rw [h.map_id, ← hgt]
    exact List.mem_map_of_mem hg
  obtain ⟨u, hu, hut⟩ := List.mem_map.1 hid
  refine ⟨u, ⟨hu, Inputs.mem_blocksFor_iff.2 ⟨hx, t, ht, hut.symm⟩⟩, ?_⟩
  rintro v ⟨hv, hxv⟩
  obtain ⟨-, t', ht', hid'⟩ := Inputs.mem_blocksFor_iff.1 hxv
  rw [ht] at ht'
  cases ht'
  exact h.eq_of_id hv hu (hid'.symm.trans hut.symm)

end Generated

/-! ### Declarations of distinct blocks -/

theorem Comment.line_target (c : Comment) (ctx : PackageContext) (d : Declaration) :
    (c.target ctx d).line = d.line := by
  have hmethod : (c.withMethod d).line = d.line := by
    unfold withMethod
    split <;> rfl
  have hname : ∀ d : Declaration, (c.withName d).line = d.line := by
    intro d
    unfold withName
    split
    · split <;> rfl
    · rfl
  unfold target withPackage
  split
  · exact (hname _).trans hmethod
  · exact (hname _).trans hmethod

/-- A line of a unit is declared by one block at most. -/
theorem Block.eq_of_declaration_line {unit : SourceUnit} {ordinal : Nat} {marker : String}
    {b b' : Block} (hb : b ∈ Block.ofUnit unit ordinal marker)
    (hb' : b' ∈ Block.ofUnit unit ordinal marker) (h : b.declaration.line = b'.declaration.line) :
    b = b' := by
  have hlines : ((Block.ofUnit unit ordinal marker).map (·.declaration.line)).Pairwise (· < ·) := by
    refine List.pairwise_map.2 ((Block.pairwise_ofUnit unit ordinal marker).imp_of_mem ?_)
    intro a a' _ ha' hlt
    exact hlt.2.trans (Block.line_lt_of_mem_ofUnit ha')
  exact List.inj_on_of_nodup_map (hlines.imp Nat.ne_of_lt) hb hb' h

/-- Blocks of units with distinct identifiers document distinct declarations. -/
theorem Inputs.subjectOf_injective {inputs : Inputs} (hids : inputs.unitIds.Nodup)
    {x y : Block × Comment} (hx : x ∈ inputs.blocks) (hy : y ∈ inputs.blocks)
    (h : inputs.subjectOf x = inputs.subjectOf y) : x = y := by
  obtain ⟨b, c⟩ := x
  obtain ⟨b', c'⟩ := y
  obtain ⟨unit, ordinal, hunit, hb, rfl⟩ := mem_blocks_iff.1 hx
  obtain ⟨unit', ordinal', hunit', hb', rfl⟩ := mem_blocks_iff.1 hy
  have hordinal : ordinal = ordinal' := by
    have hid : unit.id = unit'.id := by
      rw [← (Block.unit_of_mem_ofUnit hb).1, ← (Block.unit_of_mem_ofUnit hb').1]
      exact congrArg (·.unit) h
    have hget : inputs.unitIds[ordinal]? = inputs.unitIds[ordinal']? := by
      simp only [unitIds, List.getElem?_map, hunit, hunit', Option.map_some, hid]
    have hlt : ordinal < inputs.unitIds.length := by
      rw [unitIds, List.length_map]
      exact (List.getElem?_eq_some_iff.1 hunit).1
    exact (List.getElem?_inj hlt hids).1 hget
  subst hordinal
  rw [hunit] at hunit'
  cases hunit'
  have hline := congrArg (·.declaration.line) h
  simp only [subjectOf, subject, Comment.line_target] at hline
  rw [Block.eq_of_declaration_line hb hb' hline]

/-! ### Diagnostics -/

/-- A block without a topic only holds directives, or it is reported. -/
theorem Comment.mem_faults_of_ofComment_none {b : Block} {c : Comment} {ctx : PackageContext}
    (h : Topic.ofComment b c ctx = none) (hc : c.directivesOnly = false) :
    Diagnostic.validation b.pos "block documents no named declaration; add `@name`" ∈
      c.faults b ctx := by
  have hname : (subject b c ctx).declaration.name = none := Option.map_eq_none_iff.1 h
  rw [faults, if_pos (by rw [hname]; rfl)]
  refine List.mem_append_right _ ?_
  rw [unnamedFaults, hc]
  exact List.mem_singleton.2 rfl

namespace Inputs

/-- The run of marker lines became a block. -/
def IsBound (inputs : Inputs) (ordinal : Nat) (r : MarkerRun) : Prop :=
  ∃ x ∈ inputs.blocks, x.1.place.unit = ordinal ∧ x.1.lines = r.lines

instance (inputs : Inputs) (ordinal : Nat) (r : MarkerRun) : Decidable (inputs.IsBound ordinal r) :=
  inferInstanceAs (Decidable (∃ x ∈ inputs.blocks, _))

/-- The runs of marker lines that became no block, with their units and the ordinals of these. -/
def unboundRuns (inputs : Inputs) : List ((SourceUnit × Nat) × MarkerRun) :=
  (numbered inputs.units).flatMap fun x =>
    ((markerRuns inputs.options.marker 1 (Text.lines x.1.text)).filter fun r =>
      ¬inputs.IsBound x.2 r).map fun r => (x, r)

/-- The warning for a run that became no block. -/
def unboundWarning (x : (SourceUnit × Nat) × MarkerRun) : Diagnostic :=
  .warning ⟨x.1.1.id, x.2.first.number⟩
    "documentation block is not followed by a declaration; discarded"

variable {inputs : Inputs} {unit : SourceUnit} {ordinal : Nat} {r : MarkerRun}

theorem isBound_iff (hunit : inputs.units[ordinal]? = some unit)
    (hr : r ∈ markerRuns inputs.options.marker 1 (Text.lines unit.text)) :
    inputs.IsBound ordinal r ↔
      ∃ d, declarationBelow inputs.options.marker r.next r.below = some d := by
  constructor
  · rintro ⟨⟨b, c⟩, hx, hplace, hlines⟩
    obtain ⟨unit', ordinal', hunit', hb, -⟩ := mem_blocks_iff.1 hx
    have hordinal : ordinal' = ordinal := (Block.unit_of_mem_ofUnit hb).2.symm.trans hplace
    rw [hordinal, hunit] at hunit'
    cases hunit'
    obtain ⟨s, hs, d, hd, rfl⟩ := Block.mem_ofUnit_iff.1 hb
    -- the two runs start on the same line
    have hfirst : s.first.number = r.first.number := congrArg (·.number) (List.cons.inj hlines).1
    have hrs : s = r := MarkerRun.eq_of_first hs hr hfirst
    exact ⟨d, hrs ▸ hd⟩
  · rintro ⟨d, hd⟩
    have hb : ⟨unit.id, ⟨ordinal, r.first.number⟩, r.lines, d⟩ ∈
        Block.ofUnit unit ordinal inputs.options.marker :=
      Block.mem_ofUnit_iff.2 ⟨r, hr, d, hd, rfl⟩
    exact ⟨(_, _), mem_blocks_iff.2 ⟨unit, ordinal, hunit, hb, rfl⟩, rfl, rfl⟩

/-- The warnings of a unit are those for its unbound runs, one for each. -/
theorem map_unboundWarning (hunit : inputs.units[ordinal]? = some unit) :
    (((markerRuns inputs.options.marker 1 (Text.lines unit.text)).filter fun r =>
      ¬inputs.IsBound ordinal r).map fun r => unboundWarning ((unit, ordinal), r)) =
      Block.discarded unit ordinal inputs.options.marker := by
  rw [Block.discarded, findings_eq_map, List.filterMap_map, ← List.filterMap_eq_filter,
    List.map_filterMap]
  refine List.filterMap_congr fun r hr => ?_
  have hbound := isBound_iff hunit hr
  rw [Function.comp_apply, MarkerRun.finding]
  cases hd : declarationBelow inputs.options.marker r.next r.below with
  | some d =>
    have h : inputs.IsBound ordinal r := hbound.2 ⟨d, hd⟩
    simp [Option.guard, h, Block.Finding.warning?]
  | none =>
    have h : ¬inputs.IsBound ordinal r := by
      rw [hbound, hd]
      rintro ⟨d, hd⟩
      cases hd
    simp [Option.guard, h, Block.Finding.warning?, unboundWarning]

theorem unboundWarnings_sublist (inputs : Inputs) :
    (inputs.unboundRuns.map unboundWarning).Sublist inputs.unitFaults := by
  rw [unboundRuns, unitFaults, parsed, List.map_flatMap, List.flatMap_map]
  refine List.Sublist.flatMap_right _ fun x hx => ?_
  rw [numbered_eq_zipIdx, List.mem_zipIdx_iff_getElem?] at hx
  rw [List.map_map]
  refine List.Sublist.trans ?_ (List.sublist_append_left _ _)
  exact (map_unboundWarning hx).symm ▸ List.sublist_append_left _ _

theorem mem_unboundRuns (hunit : inputs.units[ordinal]? = some unit)
    (hr : r ∈ markerRuns inputs.options.marker 1 (Text.lines unit.text))
    (hbound : ¬inputs.IsBound ordinal r) : ((unit, ordinal), r) ∈ inputs.unboundRuns := by
  have hx : (unit, ordinal) ∈ numbered inputs.units := by
    rw [numbered_eq_zipIdx, List.mk_mem_zipIdx_iff_getElem?]
    exact hunit
  refine List.mem_flatMap.2 ⟨(unit, ordinal), hx, List.mem_map_of_mem ?_⟩
  exact List.mem_filter.2 ⟨hr, decide_eq_true hbound⟩

theorem mem_unitFaults {x : Block × Comment} (hx : x ∈ inputs.blocks) {d : Diagnostic}
    (hd : d ∈ x.2.faults x.1 inputs.context) : d ∈ inputs.unitFaults := by
  obtain ⟨u, hu, hxu⟩ := List.mem_flatMap.1 hx
  refine List.mem_flatMap.2 ⟨u, hu, List.mem_append_right _ ?_⟩
  exact List.mem_flatMap.2 ⟨x, hxu, hd⟩

theorem unitFaults_subperm {m : Manual} (h : generate inputs = .ok m) :
    inputs.unitFaults.Subperm m.diagnostics := by
  obtain ⟨merged, hperm⟩ := exists_perm_diagnostics h
  rw [List.append_assoc] at hperm
  exact (List.sublist_append_left _ _).subperm.trans hperm.symm.subperm

theorem directivesOnly_or_reported {m : Manual} (h : generate inputs = .ok m)
    {x : Block × Comment} (hx : x ∈ inputs.blocks) (htopic : inputs.topicOf x = none) :
    x.2.directivesOnly = true ∨ ∃ d ∈ m.diagnostics, d.level = .validation ∧ d.pos = x.1.pos := by
  by_cases hc : x.2.directivesOnly = true
  · exact .inl hc
  · have hfault := Comment.mem_faults_of_ofComment_none htopic (Bool.eq_false_of_not_eq_true hc)
    exact .inr ⟨_, (unitFaults_subperm h).subset (mem_unitFaults hx hfault), rfl, rfl⟩

/-- Without diagnostics every marker line belongs to a block. -/
theorem exists_block_of_marker {m : Manual} (h : generate inputs = .ok m)
    (hnil : m.diagnostics = []) (hunit : inputs.units[ordinal]? = some unit) {line text : String}
    {i : Nat} (hline : (Text.lines unit.text)[i]? = some line)
    (hmarker : LineClass.of inputs.options.marker line = .marker text) :
    ∃ x ∈ inputs.blocks, x.1.place.unit = ordinal ∧ ⟨i + 1, Text.trimEnd text⟩ ∈ x.1.lines := by
  have hentry : markerLine? inputs.options.marker (1 + i) line =
      some ⟨i + 1, Text.trimEnd text⟩ := by
    rw [markerLine?, hmarker, Nat.add_comm]
  obtain ⟨r, hr, hmem⟩ := exists_mem_markerRuns hline hentry
  have hbound : inputs.IsBound ordinal r := by
    by_contra hbound
    have hwarning := List.mem_map_of_mem (f := unboundWarning) (mem_unboundRuns hunit hr hbound)
    have hdiagnostic := (unitFaults_subperm h).subset (inputs.unboundWarnings_sublist.subset hwarning)
    rw [hnil] at hdiagnostic
    cases hdiagnostic
  obtain ⟨x, hx, hplace, hlines⟩ := hbound
  exact ⟨x, hx, hplace, hlines ▸ hmem⟩

end Inputs

/-- Of units with distinct identifiers, a declaration is in one topic of the manual only. -/
theorem Generated.existsUnique_subject {inputs : Inputs} {merged : List Topic} {m : Manual}
    (h : Generated inputs merged m) (hids : inputs.unitIds.Nodup) {x : Block × Comment} {t : Topic}
    (hx : x ∈ inputs.blocks) (ht : inputs.topicOf x = some t) :
    ∃! u, u ∈ m.topics ∧ inputs.subjectOf x ∈ u.subjects := by
  obtain ⟨u, ⟨hu, hxu⟩, hunique⟩ := h.existsUnique_blocksFor hx ht
  refine ⟨u, ⟨hu, ?_⟩, ?_⟩
  · simp only [h.subjects_eq hu]
    exact List.mem_map_of_mem hxu
  · rintro v ⟨hv, hxv⟩
    rw [h.subjects_eq hv] at hxv
    obtain ⟨y, hy, hxy⟩ := List.mem_map.1 hxv
    have hyx := Inputs.subjectOf_injective hids (Inputs.mem_blocksFor_iff.1 hy).1 hx hxy
    exact hunique v ⟨hv, hyx ▸ hy⟩

/-- No documented block is lost or doubled. The declarations of all topics are those of the blocks
that have a topic, and each topic has those of the blocks of its identifier. A block without a topic
only holds directives, or it is reported at its position. A maximal run of marker lines became a
block, or it left a warning of its own at its first line. So without diagnostics every marker line
belongs to a block of directives or to a block whose declaration is in exactly one topic; where the
identifiers of the units are distinct, that declaration differs from those of all other blocks. -/
theorem generate_covers_blocks {inputs : Inputs} {m : Manual} (h : generate inputs = .ok m) :
    (m.topics.flatMap (·.subjects)).Perm
      ((inputs.blocks.filter fun x => (inputs.topicOf x).isSome).map inputs.subjectOf) ∧
    (∀ t ∈ m.topics, t.subjects = (inputs.blocksFor t.id).map inputs.subjectOf) ∧
    (∀ x ∈ inputs.blocks, inputs.topicOf x = none →
      x.2.directivesOnly = true ∨
        ∃ d ∈ m.diagnostics, d.level = .validation ∧ d.pos = x.1.pos) ∧
    (∀ unit ordinal, inputs.units[ordinal]? = some unit →
      ∀ r : MarkerRun, r.IsMaximal inputs.options.marker 1 (Text.lines unit.text) →
        inputs.IsBound ordinal r ∨ ((unit, ordinal), r) ∈ inputs.unboundRuns) ∧
    (inputs.unboundRuns.map Inputs.unboundWarning).Subperm m.diagnostics ∧
    (m.diagnostics = [] →
      ∀ unit ordinal, inputs.units[ordinal]? = some unit →
        ∀ line i text, (Text.lines unit.text)[i]? = some line →
          LineClass.of inputs.options.marker line = .marker text →
          ∃ x ∈ inputs.blocks, x.1.place.unit = ordinal ∧ ⟨i + 1, Text.trimEnd text⟩ ∈ x.1.lines ∧
            (x.2.directivesOnly = true ∨
              (∃! t, t ∈ m.topics ∧ x ∈ inputs.blocksFor t.id) ∧
                (inputs.unitIds.Nodup →
                  ∃! t, t ∈ m.topics ∧ inputs.subjectOf x ∈ t.subjects))) := by
  obtain ⟨merged, hm⟩ := exists_generated h
  have hreported := fun x hx => Inputs.directivesOnly_or_reported h (x := x) hx
  refine ⟨hm.perm_subjects, fun t ht => hm.subjects_eq ht, hreported, ?_, ?_, ?_⟩
  · intro unit ordinal hunit r hr
    by_cases hbound : inputs.IsBound ordinal r
    · exact .inl hbound
    · exact .inr (Inputs.mem_unboundRuns hunit (mem_markerRuns_iff.2 hr) hbound)
  · exact inputs.unboundWarnings_sublist.subperm.trans (Inputs.unitFaults_subperm h)
  · intro hnil unit ordinal hunit line i text hline hmarker
    obtain ⟨x, hx, hplace, hmem⟩ := Inputs.exists_block_of_marker h hnil hunit hline hmarker
    refine ⟨x, hx, hplace, hmem, ?_⟩
    cases ht : inputs.topicOf x with
    | none =>
      rcases hreported x hx ht with hc | ⟨d, hd, -⟩
      · exact .inl hc
      · rw [hnil] at hd
        cases hd
    | some t =>
      exact .inr ⟨hm.existsUnique_blocksFor hx ht, fun hids => hm.existsUnique_subject hids hx ht⟩

/-- Two units with one topic between them, and a block that only says which unit comes first. -/
def includeAndGroup : Inputs :=
  { units := [⟨"R/a.R", "#' @include b.R\nNULL\n\n#' Area\n#' @rdname g\nf <- function() 1\n"⟩,
      ⟨"R/b.R", "#' @rdname g\nh <- function() 2\n"⟩] }

theorem covers_includeAndGroup :
    ∃ m, generate includeAndGroup = .ok m ∧ m.diagnostics = [] ∧
      m.topics.map (·.subjects.length) = [2] ∧
      (m.topics.flatMap (·.subjects)).Perm
        ((includeAndGroup.blocks.filter fun x => (includeAndGroup.topicOf x).isSome).map
          includeAndGroup.subjectOf) ∧
      ∃ x ∈ includeAndGroup.blocks, x.1.place.unit = 1 ∧ ⟨1, "@rdname g"⟩ ∈ x.1.lines ∧
        (x.2.directivesOnly = true ∨
          (∃! t, t ∈ m.topics ∧ x ∈ includeAndGroup.blocksFor t.id) ∧
            (includeAndGroup.unitIds.Nodup →
              ∃! t, t ∈ m.topics ∧ includeAndGroup.subjectOf x ∈ t.subjects)) := by
  have heval : (generate includeAndGroup).toOption.map
      (fun m => (m.diagnostics, m.topics.map (·.subjects.length))) = some ([], [2]) := by
    decide +kernel
  obtain ⟨m, hm, hresult⟩ := toOption_map_eq_some_iff.1 heval
  obtain ⟨hnil, hlengths⟩ := Prod.ext_iff.1 hresult
  obtain ⟨hperm, -, -, -, -, hlines⟩ := generate_covers_blocks hm
  refine ⟨m, hm, hnil, hlengths, hperm, ?_⟩
  exact hlines hnil ⟨"R/b.R", "#' @rdname g\nh <- function() 2\n"⟩ 1 rfl "#' @rdname g" 0
    "@rdname g" (by decide +kernel) (by decide +kernel)

end DocTopics
