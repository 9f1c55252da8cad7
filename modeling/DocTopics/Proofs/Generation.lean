import DocTopics.Manual.Basic
import DocTopics.Proofs.Merging

/-!
# What a run gives

The parts of a manual, each with the stage that made it. Resolving cross-references and noting
shadowed names change neither what a topic claims nor what it exports, so the index and the export
directives of a manual can be read off its finished topics.

## Main definitions

- `Generated` — a manual together with the merged topics it was made from
-/

namespace DocTopics

/-! ### Stages that keep the claims -/

theorem flatMap_resolve {β : Type} {f : Topic → List β} (topics : List Topic)
    (hf : ∀ (t : Topic) params seeAlso, f { t with params := params, seeAlso := seeAlso } = f t) :
    (Topic.resolve topics).flatMap f = topics.flatMap f := by
  rw [Topic.resolve, List.flatMap_map]
  simp only [hf]

theorem flatMap_withShadowed {β : Type} {f : Topic → List β} (index : AliasIndex)
    (topics : List Topic)
    (hf : ∀ (t : Topic) names, f { t with shadowedAliases := names } = f t) :
    (topics.map (·.withShadowed index)).flatMap f = topics.flatMap f := by
  have hstep : ∀ t : Topic, f (t.withShadowed index) = f t := by
    intro t
    unfold Topic.withShadowed
    split
    · exact hf t _
    · rfl
  rw [List.flatMap_map]
  simp only [hstep]

theorem Topic.id_withShadowed (index : AliasIndex) (t : Topic) :
    (t.withShadowed index).id = t.id := by
  unfold Topic.withShadowed
  split <;> rfl

theorem mem_claims_resolve {topics merged : List Topic} (h : Topic.merge topics = .ok merged)
    {e : AliasEntry} :
    e ∈ (Topic.resolve merged).flatMap Topic.claims ↔ e ∈ topics.flatMap Topic.claims := by
  have hgroups := Topic.groups_of_merge h
  rw [flatMap_resolve _ fun _ _ _ => rfl,
    hgroups.mem_flatMap_iff fun g hg e => hgroups.mem_claims hg e]
  simp only [List.mem_flatMap, Topic.mem_inSourceOrder]

theorem mem_packageClaims_resolve {topics merged : List Topic}
    (h : Topic.merge topics = .ok merged) {e : AliasEntry} :
    e ∈ (Topic.resolve merged).flatMap Topic.packageClaims ↔
      e ∈ topics.flatMap Topic.packageClaims := by
  have hgroups := Topic.groups_of_merge h
  rw [flatMap_resolve _ fun _ _ _ => rfl,
    hgroups.mem_flatMap_iff fun g hg e => hgroups.mem_packageClaims hg e]
  simp only [List.mem_flatMap, Topic.mem_inSourceOrder]

/-! ### The parts of a manual -/

/-- The manual is what the stages of a run give, with `merged` the topics behind the first. -/
structure Generated (inputs : Inputs) (merged : List Topic) (m : Manual) : Prop where
  merge : Topic.merge inputs.blockTopics = .ok merged
  index : AliasIndex.build (Topic.resolve merged) inputs.options.aliasPolicy = .ok m.index
  collation : collationOf inputs.unitIds (includeEdges inputs.unitIds inputs.includes) =
    .ok m.collation
  topics : m.topics = (Topic.resolve merged).map (·.withShadowed m.index)
  exports : m.exports = exportsOf m.topics

theorem exists_generated {inputs : Inputs} {m : Manual} (h : generate inputs = .ok m) :
    ∃ merged, Generated inputs merged m := by
  obtain ⟨merged, hmerge, h⟩ := bind_eq_ok_iff.1 h
  obtain ⟨index, hindex, h⟩ := bind_eq_ok_iff.1 h
  obtain ⟨collation, hcollation, h⟩ := bind_eq_ok_iff.1 h
  cases h
  exact ⟨merged, hmerge, hindex, hcollation, rfl, rfl⟩

/-- The diagnostics of a manual are the faults of its units, its topics and its directives. -/
theorem exists_perm_diagnostics {inputs : Inputs} {m : Manual} (h : generate inputs = .ok m) :
    ∃ merged, m.diagnostics.Perm (inputs.unitFaults ++ Topic.resolveFaults merged ++
      includeFaults inputs.unitIds inputs.includes) := by
  obtain ⟨merged, -, h⟩ := bind_eq_ok_iff.1 h
  obtain ⟨index, -, h⟩ := bind_eq_ok_iff.1 h
  obtain ⟨collation, -, h⟩ := bind_eq_ok_iff.1 h
  cases h
  exact ⟨merged, perm_sortBy _ _⟩

/-- A run succeeds exactly when its three fallible stages do. -/
theorem exists_generate_iff {inputs : Inputs} :
    (∃ m, generate inputs = .ok m) ↔
      ∃ merged, Topic.merge inputs.blockTopics = .ok merged ∧
        (∃ index, AliasIndex.build (Topic.resolve merged) inputs.options.aliasPolicy = .ok index) ∧
        ∃ order, collationOf inputs.unitIds (includeEdges inputs.unitIds inputs.includes) =
          .ok order := by
  constructor
  · rintro ⟨m, h⟩
    obtain ⟨merged, hm⟩ := exists_generated h
    exact ⟨merged, hm.merge, ⟨m.index, hm.index⟩, m.collation, hm.collation⟩
  · rintro ⟨merged, hmerge, ⟨index, hindex⟩, order, horder⟩
    exact ⟨_, bind_eq_ok_iff.2 ⟨merged, hmerge,
      bind_eq_ok_iff.2 ⟨index, hindex, bind_eq_ok_iff.2 ⟨order, horder, rfl⟩⟩⟩⟩

/-- Items of a list without repetitions are filtered to one exactly when only that one fits. -/
theorem filter_eq_singleton_iff {α : Type} {xs : List α} (hxs : xs.Nodup) {p : α → Bool} {x : α} :
    xs.filter p = [x] ↔ x ∈ xs ∧ p x = true ∧ ∀ y ∈ xs, p y = true → y = x := by
  constructor
  · intro h
    have hmem : ∀ y, y ∈ xs ∧ p y = true ↔ y = x := by
      intro y
      rw [← List.mem_filter, h, List.mem_singleton]
    obtain ⟨hx, hp⟩ := (hmem x).2 rfl
    exact ⟨hx, hp, fun y hy hp' => (hmem y).1 ⟨hy, hp'⟩⟩
  · rintro ⟨hx, hp, hunique⟩
    refine List.perm_singleton.1 ((List.perm_ext_iff_of_nodup (hxs.filter p) ?_).2 ?_)
    · exact List.nodup_singleton x
    · intro y
      rw [List.mem_filter, List.mem_singleton]
      constructor
      · rintro ⟨hy, hp'⟩
        exact hunique y hy hp'
      · rintro rfl
        exact ⟨hx, hp⟩

namespace Generated

variable {inputs : Inputs} {merged : List Topic} {m : Manual}

theorem map_id (h : Generated inputs merged m) : m.topics.map (·.id) = merged.map (·.id) := by
  simp [h.topics, Topic.resolve, Topic.id_withShadowed]

theorem nodup (h : Generated inputs merged m) : (m.topics.map (·.id)).Nodup := by
  rw [h.map_id]
  exact (Topic.groups_of_merge h.merge).nodup

theorem eq_of_id (h : Generated inputs merged m) {t u : Topic} (ht : t ∈ m.topics)
    (hu : u ∈ m.topics) (hid : t.id = u.id) : t = u :=
  List.inj_on_of_nodup_map h.nodup ht hu hid

/-- Of each identifier there is one topic. -/
theorem filter_id (h : Generated inputs merged m) {t : Topic} (ht : t ∈ m.topics) :
    (m.topics.filter fun u => u.id = t.id) = [t] := by
  refine (filter_eq_singleton_iff h.nodup.of_map).2 ⟨ht, decide_eq_true rfl, fun u hu hid => ?_⟩
  exact h.eq_of_id hu ht (of_decide_eq_true hid)

theorem flatMap_claims (h : Generated inputs merged m) :
    m.topics.flatMap Topic.claims = (Topic.resolve merged).flatMap Topic.claims := by
  rw [h.topics, flatMap_withShadowed _ _ fun _ _ => rfl]

theorem flatMap_packageClaims (h : Generated inputs merged m) :
    m.topics.flatMap Topic.packageClaims =
      (Topic.resolve merged).flatMap Topic.packageClaims := by
  rw [h.topics, flatMap_withShadowed _ _ fun _ _ => rfl]

/-- The look-ups of the index, from the claims of the finished topics. -/
theorem get?_eq_some_iff (h : Generated inputs merged m) {space : Namespace} {key topic : String} :
    m.index.get? space key = some topic ↔
      ⟨space, key, topic⟩ ∈ m.topics.flatMap Topic.claims ∨
        ((∀ other, ⟨space, key, other⟩ ∉ m.topics.flatMap Topic.claims) ∧
          ⟨space, key, topic⟩ ∈ m.topics.flatMap Topic.packageClaims) := by
  rw [h.flatMap_claims, h.flatMap_packageClaims]
  exact AliasIndex.get?_build h.index

theorem mem_exports (h : Generated inputs merged m) {e : Export} :
    e ∈ m.topics.flatMap Topic.exports ↔
      ∃ a ∈ inputs.blockTopics, ∃ b ∈ inputs.blockTopics, a.id = b.id ∧ a.exported = true ∧
        ∃ d ∈ b.subjects, e ∈ Export.ofSubject b.docType d := by
  rw [h.topics, flatMap_withShadowed _ _ fun _ _ => rfl, flatMap_resolve _ fun _ _ _ => rfl,
    (Topic.groups_of_merge h.merge).mem_exports]
  simp only [Topic.mem_inSourceOrder]

end Generated

end DocTopics
