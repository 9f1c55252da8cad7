import DocTopics.Document.Usage
import DocTopics.Proofs.Generation

/-!
# Alias lines and plain keys agree

The alias lines of a document and the alias index are made apart from each other. The one thing they
share is the note on a package topic which of its names a symbol has taken. With it, the alias lines
of a topic are exactly the plain keys that lead to it.
-/

namespace DocTopics

theorem Topic.topic_of_mem_claims {t : Topic} {e : AliasEntry} (h : e ∈ t.claims) :
    e.topic = t.id := by
  rcases Topic.mem_claims.1 h with rfl | ⟨a, -, rfl⟩ | ⟨d, -, hd⟩
  · rfl
  · rfl
  · obtain ⟨c, -, rfl⟩ | ⟨-, name, -, rfl | rfl⟩ | ⟨-, name, -, rfl | rfl⟩ | ⟨-, -, name, -, rfl⟩ :=
      Subject.mem_claims.1 hd <;> rfl

theorem Topic.topic_of_mem_packageClaims {t : Topic} {e : AliasEntry}
    (h : e ∈ t.packageClaims) : e.topic = t.id := by
  obtain ⟨-, d, -, name, -, rfl⟩ := Topic.mem_packageClaims.1 h
  rfl

/-- A declaration is found by the plain keys it claims, and by the name of its package unless a
symbol has taken it. -/
theorem Topic.mem_aliasesOf {t : Topic} {d : Subject} {k : String} :
    k ∈ t.aliasesOf d ↔
      ⟨.plain, k, t.id⟩ ∈ d.claims t.docType t.id ∨
        (t.docType = .package ∧ d.declaration.name = some k ∧ k ∉ t.shadowedAliases) := by
  unfold Topic.aliasesOf Subject.claims
  cases d.declaration.name with
  | none => simp
  | some name =>
    have hcombination : ∀ es : List AliasEntry,
        (⟨.plain, k, t.id⟩ : AliasEntry) ∈
            (d.combination?.toList.map fun c => ⟨.combination, c.key, t.id⟩) ++ es ↔
          ⟨.plain, k, t.id⟩ ∈ es := by
      intro es
      simp
    rw [hcombination]
    cases t.docType with
    | package =>
      by_cases hshadowed : name ∈ t.shadowedAliases
      · have hnot : ¬(name = k ∧ k ∉ t.shadowedAliases) := by
          rintro ⟨rfl, hk⟩
          exact hk hshadowed
        simp [hshadowed, hnot]
      · have hname : name = k ∧ k ∉ t.shadowedAliases ↔ k = name := by
          constructor
          · exact fun h => h.1.symm
          · rintro rfl
            exact ⟨rfl, hshadowed⟩
        simp [hshadowed, hname, or_comm]
    | classDef => simp
    | _ => simp

/-- The alias lines of a topic are its plain claims, and the names of its package that no symbol has
taken. -/
theorem Topic.mem_aliasLines {t : Topic} {k : String} :
    k ∈ t.aliasLines ↔
      ⟨.plain, k, t.id⟩ ∈ t.claims ∨
        (⟨.plain, k, t.id⟩ ∈ t.packageClaims ∧ k ∉ t.shadowedAliases) := by
  unfold Topic.aliasLines
  rw [mem_extendUnique, List.mem_append, List.mem_flatMap, Topic.mem_claims,
    Topic.mem_packageClaims]
  simp only [Topic.mem_aliasesOf, AliasEntry.mk.injEq, true_and, and_true, List.mem_singleton]
  constructor
  · rintro (rfl | ⟨d, hd, hclaim | ⟨hpackage, hname, hk⟩⟩ | ha)
    · exact .inl (.inl rfl)
    · exact .inl (.inr (.inr ⟨d, hd, hclaim⟩))
    · exact .inr ⟨⟨hpackage, d, hd, k, hname, rfl⟩, hk⟩
    · exact .inl (.inr (.inl ⟨k, ha, rfl⟩))
  · rintro ((rfl | ⟨_, ha, rfl⟩ | ⟨d, hd, hclaim⟩) | ⟨⟨hpackage, d, hd, _, hname, rfl⟩, hk⟩)
    · exact .inl rfl
    · exact .inr (.inr ha)
    · exact .inr (.inl ⟨d, hd, .inl hclaim⟩)
    · exact .inr (.inl ⟨d, hd, .inr ⟨hpackage, hname, hk⟩⟩)

theorem Topic.nodup_aliasLines (t : Topic) : t.aliasLines.Nodup :=
  nodup_extendUnique (List.nodup_singleton t.id) _

namespace Generated

variable {inputs : Inputs} {merged : List Topic} {m : Manual}

/-- A name of a finished package topic is noted as taken exactly when its plain key leads
elsewhere. -/
theorem mem_shadowedAliases (h : Generated inputs merged m) {t : Topic} (ht : t ∈ m.topics)
    {k : String} (hk : ⟨.plain, k, t.id⟩ ∈ t.packageClaims) :
    k ∈ t.shadowedAliases ↔ m.index.get? .plain k ≠ some t.id := by
  obtain ⟨hpackage, d, hd, name, hname, heq⟩ := Topic.mem_packageClaims.1 hk
  cases heq
  rw [h.topics] at ht
  obtain ⟨u, -, rfl⟩ := List.mem_map.1 ht
  unfold Topic.withShadowed at hpackage hd ⊢
  split at hpackage
  · rename_i hu
    rw [if_pos hu] at hd ⊢
    have hmem : k ∈ u.subjects.filterMap (·.declaration.name) :=
      List.mem_filterMap.2 ⟨d, hd, hname⟩
    simp only [AliasIndex.shadowed, List.mem_filter, hmem, true_and, bne_iff_ne]
  · rename_i hu
    exact absurd hpackage hu

theorem get?_plain_of_mem_claims (h : Generated inputs merged m) {t : Topic} (ht : t ∈ m.topics)
    {k : String} (hk : ⟨.plain, k, t.id⟩ ∈ t.claims) : m.index.get? .plain k = some t.id :=
  h.get?_eq_some_iff.2 (.inl (List.mem_flatMap.2 ⟨t, ht, hk⟩))

/-- Every key of the index leads to a topic of the manual, which claims it. -/
theorem exists_topic_of_get? (h : Generated inputs merged m) {space : Namespace}
    {key topic : String} (hget : m.index.get? space key = some topic) :
    ∃ t ∈ m.topics, t.id = topic ∧
      (⟨space, key, topic⟩ ∈ t.claims ∨ ⟨space, key, topic⟩ ∈ t.packageClaims) := by
  rcases h.get?_eq_some_iff.1 hget with hclaim | ⟨-, hname⟩
  · obtain ⟨t, ht, hclaim⟩ := List.mem_flatMap.1 hclaim
    exact ⟨t, ht, (Topic.topic_of_mem_claims hclaim).symm, .inl hclaim⟩
  · obtain ⟨t, ht, hname⟩ := List.mem_flatMap.1 hname
    exact ⟨t, ht, (Topic.topic_of_mem_packageClaims hname).symm, .inr hname⟩

theorem mem_aliasLines_iff (h : Generated inputs merged m) {t : Topic} (ht : t ∈ m.topics)
    {k : String} : k ∈ t.aliasLines ↔ m.index.get? .plain k = some t.id := by
  rw [Topic.mem_aliasLines]
  constructor
  · rintro (hclaim | ⟨hname, hfree⟩)
    · exact h.get?_plain_of_mem_claims ht hclaim
    · rw [h.mem_shadowedAliases ht hname, not_not] at hfree
      exact hfree
  · intro hget
    obtain ⟨u, hu, hid, hclaim⟩ := h.exists_topic_of_get? hget
    -- identifiers are unique, so the topic that claims the key is this one
    obtain rfl : u = t := h.eq_of_id hu ht hid
    refine hclaim.imp_right fun hname => ⟨hname, ?_⟩
    rw [h.mem_shadowedAliases ht hname, not_not]
    exact hget

end Generated

/-- The alias lines of a topic are exactly the plain keys that lead to it, each once. So no alias
line stands in two documents, and every plain key stands in one. -/
theorem aliasLines_eq_plain_keys {inputs : Inputs} {m : Manual} (h : generate inputs = .ok m) :
    (∀ t ∈ m.topics, t.aliasLines.Nodup ∧
      ∀ k, k ∈ t.aliasLines ↔ m.index.get? .plain k = some t.id) ∧
    m.topics.Pairwise (fun t u => t.aliasLines.Disjoint u.aliasLines) ∧
    ∀ k, (m.index.get? .plain k).isSome ↔ ∃ t ∈ m.topics, k ∈ t.aliasLines := by
  obtain ⟨merged, hm⟩ := exists_generated h
  refine ⟨fun t ht => ⟨t.nodup_aliasLines, fun k => hm.mem_aliasLines_iff ht⟩, ?_, ?_⟩
  · have hids : m.topics.Pairwise fun t u => t.id ≠ u.id := List.pairwise_map.1 hm.nodup
    refine hids.imp_of_mem fun {t u} ht hu hne k hkt hku => hne ?_
    rw [hm.mem_aliasLines_iff ht] at hkt
    rw [hm.mem_aliasLines_iff hu, hkt] at hku
    exact Option.some_inj.1 hku
  · intro k
    rw [Option.isSome_iff_exists]
    constructor
    · rintro ⟨topic, hget⟩
      obtain ⟨t, ht, rfl, -⟩ := hm.exists_topic_of_get? hget
      exact ⟨t, ht, (hm.mem_aliasLines_iff ht).2 hget⟩
    · rintro ⟨t, ht, hk⟩
      exact ⟨t.id, (hm.mem_aliasLines_iff ht).1 hk⟩

/-- A package and a function that has its name. -/
def packageAndFunction : Inputs :=
  { units := [⟨"R/pk.R", "#' T\n#' @name pk\n\"_PACKAGE\"\n\n#' F\npk <- function(x) x\n"⟩] }

theorem aliasLines_of_packageAndFunction :
    ∃ m, generate packageAndFunction = .ok m ∧
      m.topics.map (·.aliasLines) = [["pk-package", "package-pk"], ["pk"]] ∧
      ∀ t ∈ m.topics, ∀ k, k ∈ t.aliasLines ↔ m.index.get? .plain k = some t.id := by
  have heval : (generate packageAndFunction).toOption.map (fun m => m.topics.map (·.aliasLines)) =
      some [["pk-package", "package-pk"], ["pk"]] := by decide +kernel
  obtain ⟨m, hgen, hlines⟩ := toOption_map_eq_some_iff.1 heval
  exact ⟨m, hgen, hlines, fun t ht => ((aliasLines_eq_plain_keys hgen).1 t ht).2⟩

end DocTopics
