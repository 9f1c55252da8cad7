import DocTopics.Alias.Index
import DocTopics.Proofs.Fold
import Mathlib.Data.List.Sort

/-!
# What an alias index holds

An index is known from its look-ups, and the look-ups of a built index are known from the claims of
its topics: which keys they claim decides whether the index exists and what it holds, and the order
of the topics does not matter.

## Main definitions

- `Consistent` — no key leads to two topics

## Main statements

- `AliasIndex.ext_get?` — indexes with the same look-ups are equal
- `AliasIndex.exists_build_iff` — when the topics have an index
- `AliasIndex.get?_build` — the look-ups of a built index
- `AliasIndex.build_eq_of_mem_iff` — topics with the same claims have the same index
-/

namespace DocTopics

/-- No key leads to two topics. -/
def Consistent (entries : List AliasEntry) : Prop :=
  ∀ space key s t, ⟨space, key, s⟩ ∈ entries → ⟨space, key, t⟩ ∈ entries → s = t

theorem Consistent.mono {entries entries' : List AliasEntry} (h : Consistent entries')
    (hsub : ∀ e ∈ entries, e ∈ entries') : Consistent entries :=
  fun space key s t hs ht => h space key s t (hsub _ hs) (hsub _ ht)

/-! ### Look-up -/

theorem AliasEntry.not_before_of_key {a b : AliasEntry} (hspace : a.space = b.space)
    (hkey : a.key = b.key) : ¬a.Before b := by
  intro h
  apply AliasEntry.Before.irrefl b
  unfold AliasEntry.Before at h ⊢
  rwa [hspace, hkey] at h

theorem AliasEntry.eq_of_key {xs : List AliasEntry} (h : xs.Pairwise AliasEntry.Before)
    {a b : AliasEntry} (ha : a ∈ xs) (hb : b ∈ xs) (hspace : a.space = b.space)
    (hkey : a.key = b.key) : a = b := by
  induction xs with
  | nil => cases ha
  | cons x xs ih =>
    obtain ⟨hx, hxs⟩ := List.pairwise_cons.1 h
    rcases List.mem_cons.1 ha with rfl | ha' <;> rcases List.mem_cons.1 hb with rfl | hb'
    · rfl
    · exact absurd (hx b hb') (not_before_of_key hspace hkey)
    · exact absurd (hx a ha') (not_before_of_key hspace.symm hkey.symm)
    · exact ih hxs ha' hb'

namespace AliasIndex

theorem get?_eq_some_iff {index : AliasIndex} {space : Namespace} {key topic : String} :
    index.get? space key = some topic ↔ ⟨space, key, topic⟩ ∈ index.entries := by
  simp only [get?, Option.map_eq_some_iff]
  constructor
  · rintro ⟨e, hfind, rfl⟩
    have hfor : e.isFor space key = true := by simpa using List.find?_some hfind
    obtain ⟨rfl, rfl⟩ := AliasEntry.isFor_iff.1 hfor
    exact List.mem_of_find?_eq_some hfind
  · intro hmem
    cases hfind : index.entries.find? (·.isFor space key) with
    | none =>
      have hnone := List.find?_eq_none.1 hfind _ hmem
      exact absurd (AliasEntry.isFor_iff.2 ⟨rfl, rfl⟩) hnone
    | some e =>
      have hfor : e.isFor space key = true := by simpa using List.find?_some hfind
      obtain ⟨hspace, hkey⟩ := AliasEntry.isFor_iff.1 hfor
      have he : e = ⟨space, key, topic⟩ :=
        AliasEntry.eq_of_key index.sorted (List.mem_of_find?_eq_some hfind) hmem hspace hkey
      exact ⟨e, rfl, by rw [he]⟩

/-- Indexes with the same look-ups are equal. -/
theorem ext_get? {a b : AliasIndex} (h : ∀ space key, a.get? space key = b.get? space key) :
    a = b := by
  have hmem : ∀ e, e ∈ a.entries ↔ e ∈ b.entries := by
    rintro ⟨space, key, topic⟩
    rw [← get?_eq_some_iff, ← get?_eq_some_iff, h]
  have : Std.Irrefl AliasEntry.Before := ⟨AliasEntry.Before.irrefl⟩
  have : Std.Antisymm AliasEntry.Before :=
    ⟨fun x y hxy hyx => absurd (hxy.trans hyx) (AliasEntry.Before.irrefl x)⟩
  have hentries : a.entries = b.entries := a.sorted.eq_of_mem_iff b.sorted hmem
  cases a
  cases b
  cases hentries
  rfl

/-! ### Insertion -/

theorem get?_insert_eq_some_iff {index index' : AliasIndex} {e : AliasEntry}
    (h : index.insert e = .ok index') {space : Namespace} {key topic : String} :
    index'.get? space key = some topic ↔
      index.get? space key = some topic ∨ e = ⟨space, key, topic⟩ := by
  rw [get?_insert h]
  by_cases hfor : e.isFor space key = true
  · obtain ⟨rfl, rfl⟩ := AliasEntry.isFor_iff.1 hfor
    have hold : ∀ t, index.get? e.space e.key = some t → t = e.topic := by
      intro t ht
      unfold insert at h
      rw [ht] at h
      by_contra hne
      simp [hne] at h
    rw [if_pos hfor, Option.some_inj]
    constructor
    · rintro rfl
      exact .inr rfl
    · rintro (ht | he)
      · exact (hold topic ht).symm
      · rw [he]
  · rw [if_neg hfor]
    refine ⟨.inl, fun hor => hor.resolve_right ?_⟩
    rintro rfl
    exact hfor (AliasEntry.isFor_iff.2 ⟨rfl, rfl⟩)

theorem exists_insert {index : AliasIndex} {e : AliasEntry}
    (h : ∀ t, index.get? e.space e.key = some t → t = e.topic) :
    ∃ index', index.insert e = .ok index' := by
  unfold insert
  split
  · rename_i topic htopic
    rw [if_pos (h topic htopic)]
    exact ⟨index, rfl⟩
  · exact ⟨_, rfl⟩

theorem get?_foldlM_insert {index index' : AliasIndex} {entries : List AliasEntry}
    (h : entries.foldlM insert index = .ok index') {space : Namespace} {key topic : String} :
    index'.get? space key = some topic ↔
      index.get? space key = some topic ∨ ⟨space, key, topic⟩ ∈ entries := by
  induction entries generalizing index with
  | nil =>
    cases h
    simp
  | cons e entries ih =>
    obtain ⟨mid, he, hrest⟩ := foldlM_cons_eq_ok_iff.1 h
    rw [ih hrest, get?_insert_eq_some_iff he, List.mem_cons, or_assoc, eq_comm (a := e)]

theorem exists_foldlM_insert_iff {index : AliasIndex} {entries : List AliasEntry} :
    (∃ index', entries.foldlM insert index = .ok index') ↔
      Consistent (index.entries ++ entries) := by
  constructor
  · rintro ⟨index', h⟩ space key s t hs ht
    have hget : ∀ u, ⟨space, key, u⟩ ∈ index.entries ++ entries →
        index'.get? space key = some u := by
      intro u hu
      rw [get?_foldlM_insert h, get?_eq_some_iff]
      exact List.mem_append.1 hu
    have := (hget s hs).symm.trans (hget t ht)
    exact Option.some_inj.1 this
  · intro hcons
    induction entries generalizing index with
    | nil => exact ⟨index, rfl⟩
    | cons e entries ih =>
      have hfree : ∀ t, index.get? e.space e.key = some t → t = e.topic := by
        intro t ht
        exact hcons e.space e.key t e.topic
          (List.mem_append_left _ (get?_eq_some_iff.1 ht)) (by simp)
      obtain ⟨mid, he⟩ := exists_insert hfree
      have hmid : Consistent (mid.entries ++ entries) := by
        refine hcons.mono ?_
        rintro ⟨space, key, topic⟩ hmem
        rcases List.mem_append.1 hmem with hmem | hmem
        · rw [← get?_eq_some_iff, get?_insert_eq_some_iff he, get?_eq_some_iff] at hmem
          rcases hmem with hmem | rfl
          · exact List.mem_append_left _ hmem
          · simp
        · simp [hmem]
      obtain ⟨index', hrest⟩ := ih hmid
      exact ⟨index', foldlM_cons_eq_ok_iff.2 ⟨mid, he, hrest⟩⟩

theorem exists_ofEntries_iff {entries : List AliasEntry} :
    (∃ index, ofEntries entries = .ok index) ↔ Consistent entries :=
  exists_foldlM_insert_iff

theorem get?_ofEntries {entries : List AliasEntry} {index : AliasIndex}
    (h : ofEntries entries = .ok index) {space : Namespace} {key topic : String} :
    index.get? space key = some topic ↔ ⟨space, key, topic⟩ ∈ entries := by
  rw [get?_foldlM_insert h]
  exact or_iff_right (by simp [get?])

end AliasIndex

/-! ### Claims -/

theorem Subject.combination?_eq_some_iff {d : Subject} {c : Combination} :
    d.combination? = some c ↔ ∃ name, d.declaration.name = some name ∧
      d.declaration.kind = .method ∧ d.declaration.dispatch ≠ [] ∧
        ⟨name, d.declaration.dispatch⟩ = c := by
  simp only [combination?, Option.bind_eq_some_iff]
  refine exists_congr fun name => and_congr_right fun _ => ?_
  by_cases hkind : d.declaration.kind = .method
  · by_cases hdispatch : d.declaration.dispatch = []
    · simp [hdispatch]
    · simp [hkind, hdispatch]
  · simp [hkind]

/-- The keys of a declaration, by the documentation type. -/
theorem Subject.mem_claims {docType : DocType} {topic : String} {d : Subject} {e : AliasEntry} :
    e ∈ d.claims docType topic ↔
      (∃ c, d.combination? = some c ∧ e = ⟨.combination, c.key, topic⟩) ∨
      (docType = .package ∧ ∃ name, d.declaration.name = some name ∧
        (e = ⟨.plain, "package-" ++ name, topic⟩ ∨ e = ⟨.package, name, topic⟩)) ∨
      (docType = .classDef ∧ ∃ name, d.declaration.name = some name ∧
        (e = ⟨.plain, name ++ "-class", topic⟩ ∨ e = ⟨.classDef, name, topic⟩)) ∨
      (docType ≠ .package ∧ docType ≠ .classDef ∧
        ∃ name, d.displayName = some name ∧ e = ⟨.plain, name, topic⟩) := by
  cases hname : d.declaration.name with
  | none => simp [claims, combination?, displayName, hname]
  | some name =>
    simp only [claims, hname, List.mem_append, List.mem_map, Option.mem_toList]
    refine or_congr (exists_congr fun c => and_congr_right fun _ => eq_comm) ?_
    cases docType <;> simp [eq_comm]

theorem Topic.mem_claims {t : Topic} {e : AliasEntry} :
    e ∈ t.claims ↔
      e = ⟨.plain, t.id, t.id⟩ ∨ (∃ a ∈ t.aliases, e = ⟨.plain, a, t.id⟩) ∨
        ∃ d ∈ t.subjects, e ∈ d.claims t.docType t.id := by
  simp [Topic.claims, eq_comm]

theorem Topic.mem_packageClaims {t : Topic} {e : AliasEntry} :
    e ∈ t.packageClaims ↔
      t.docType = .package ∧
        ∃ d ∈ t.subjects, ∃ name, d.declaration.name = some name ∧ e = ⟨.plain, name, t.id⟩ := by
  unfold Topic.packageClaims
  split
  · rename_i hpackage
    simp [hpackage, eq_comm]
  · rename_i hother
    simp [hother]

theorem Topic.packageKey_mem_claims {t : Topic} {e : AliasEntry} (h : e ∈ t.packageClaims) :
    ⟨.plain, "package-" ++ e.key, e.topic⟩ ∈ t.claims := by
  obtain ⟨hpackage, d, hd, name, hname, rfl⟩ := Topic.mem_packageClaims.1 h
  refine Topic.mem_claims.2 (.inr (.inr ⟨d, hd, ?_⟩))
  simp [Subject.claims, hname, hpackage]

/-- Two packages of one name claim one key whatever the policy. -/
theorem consistent_packageClaims {topics : List Topic}
    (h : Consistent (topics.flatMap Topic.claims)) :
    Consistent (topics.flatMap Topic.packageClaims) := by
  intro space key s t hs ht
  obtain ⟨a, ha, hs⟩ := List.mem_flatMap.1 hs
  obtain ⟨b, hb, ht⟩ := List.mem_flatMap.1 ht
  exact h .plain ("package-" ++ key) s t
    (List.mem_flatMap.2 ⟨a, ha, Topic.packageKey_mem_claims hs⟩)
    (List.mem_flatMap.2 ⟨b, hb, Topic.packageKey_mem_claims ht⟩)

namespace AliasIndex

/-- Names that may yield are always accepted; each goes to its package unless it is taken. -/
theorem foldlM_insertPackage_preferSymbol {entries : List AliasEntry} (hcons : Consistent entries)
    (index : AliasIndex) :
    ∃ index', entries.foldlM (insertPackage .preferSymbol) index = .ok index' ∧
      ∀ space key topic, index'.get? space key = some topic ↔
        index.get? space key = some topic ∨
          (index.get? space key = none ∧ ⟨space, key, topic⟩ ∈ entries) := by
  induction entries generalizing index with
  | nil => exact ⟨index, rfl, by simp⟩
  | cons e entries ih =>
    have hcons' : Consistent entries := hcons.mono fun x hx => List.mem_cons_of_mem e hx
    cases hold : index.get? e.space e.key with
    | some owner =>
      -- the name is taken, so the index stays as it is
      obtain ⟨index', hrest, hget⟩ := ih hcons' index
      refine ⟨index', ?_, ?_⟩
      · exact foldlM_cons_eq_ok_iff.2 ⟨index, by simp [insertPackage, hold], hrest⟩
      · intro space key topic
        rw [hget, List.mem_cons]
        refine or_congr_right (and_congr_right fun hnone => (or_iff_right ?_).symm)
        rintro rfl
        rw [hold] at hnone
        cases hnone
    | none =>
      have hfree : ∀ t, index.get? e.space e.key = some t → t = e.topic := by simp [hold]
      obtain ⟨mid, he⟩ := exists_insert hfree
      obtain ⟨index', hrest, hget⟩ := ih hcons' mid
      refine ⟨index', ?_, ?_⟩
      · exact foldlM_cons_eq_ok_iff.2 ⟨mid, by simpa [insertPackage, hold] using he, hrest⟩
      · intro space key topic
        rw [hget, List.mem_cons, get?_insert he]
        by_cases hfor : e.isFor space key = true
        · obtain ⟨rfl, rfl⟩ := AliasEntry.isFor_iff.1 hfor
          -- a later entry for this key is of the same topic
          have htopic : ⟨e.space, e.key, topic⟩ ∈ entries → e.topic = topic := by
            intro hmem
            exact hcons e.space e.key e.topic topic List.mem_cons_self
              (List.mem_cons_of_mem e hmem)
          have hself : (⟨e.space, e.key, topic⟩ : AliasEntry) = e ↔ e.topic = topic :=
            ⟨fun heq => by rw [← heq], fun heq => by rw [← heq]⟩
          simp only [hold, if_pos hfor, Option.some_inj, reduceCtorEq, false_and, or_false,
            false_or, true_and, hself]
          exact (or_iff_left_of_imp htopic).symm
        · have hne : (⟨space, key, topic⟩ : AliasEntry) ≠ e := by
            rintro rfl
            exact hfor (AliasEntry.isFor_iff.2 ⟨rfl, rfl⟩)
          rw [if_neg hfor, or_iff_right hne]

/-! ### The index of a list of topics -/

/-- The claims that must not meet. Under the lenient policy the plain names of packages yield. -/
def binding (topics : List Topic) : AliasPolicy → List AliasEntry
  | .preferSymbol => topics.flatMap Topic.claims
  | .strict => topics.flatMap Topic.claims ++ topics.flatMap Topic.packageClaims

theorem build_strict (topics : List Topic) :
    build topics .strict = ofEntries (binding topics .strict) := by
  have hinsert : insertPackage .strict = insert := by
    funext index e
    simp [insertPackage]
  rw [build, hinsert, binding, ofEntries, ofEntries, List.foldlM_append]

theorem exists_build_iff {topics : List Topic} {policy : AliasPolicy} :
    (∃ index, build topics policy = .ok index) ↔ Consistent (binding topics policy) := by
  cases policy with
  | strict => rw [build_strict, exists_ofEntries_iff]
  | preferSymbol =>
    rw [binding, ← exists_ofEntries_iff]
    constructor
    · rintro ⟨index, h⟩
      obtain ⟨base, hbase, -⟩ := bind_eq_ok_iff.1 h
      exact ⟨base, hbase⟩
    · rintro ⟨base, hbase⟩
      have hcons := consistent_packageClaims (exists_ofEntries_iff.1 ⟨base, hbase⟩)
      obtain ⟨index, hindex, -⟩ := foldlM_insertPackage_preferSymbol hcons base
      exact ⟨index, bind_eq_ok_iff.2 ⟨base, hbase, hindex⟩⟩

/-- Every claim leads to its topic; the plain name of a package does unless it is claimed. -/
theorem get?_build {topics : List Topic} {policy : AliasPolicy} {index : AliasIndex}
    (h : build topics policy = .ok index) {space : Namespace} {key topic : String} :
    index.get? space key = some topic ↔
      ⟨space, key, topic⟩ ∈ topics.flatMap Topic.claims ∨
        ((∀ other, ⟨space, key, other⟩ ∉ topics.flatMap Topic.claims) ∧
          ⟨space, key, topic⟩ ∈ topics.flatMap Topic.packageClaims) := by
  cases policy with
  | strict =>
    have hcons := exists_build_iff.1 ⟨index, h⟩
    rw [build_strict] at h
    rw [get?_ofEntries h, binding, List.mem_append]
    constructor
    · rintro (hclaim | hname)
      · exact .inl hclaim
      · by_cases htaken : ∃ other, ⟨space, key, other⟩ ∈ topics.flatMap Topic.claims
        · obtain ⟨other, hother⟩ := htaken
          have heq : other = topic := hcons space key other topic
            (List.mem_append_left _ hother) (List.mem_append_right _ hname)
          exact .inl (heq ▸ hother)
        · exact .inr ⟨not_exists.1 htaken, hname⟩
    · exact Or.imp_right And.right
  | preferSymbol =>
    obtain ⟨base, hbase, hrest⟩ := bind_eq_ok_iff.1 h
    have hcons := consistent_packageClaims (exists_ofEntries_iff.1 ⟨base, hbase⟩)
    obtain ⟨index', hindex', hget⟩ := foldlM_insertPackage_preferSymbol hcons base
    rw [hrest] at hindex'
    cases hindex'
    rw [hget, get?_ofEntries hbase]
    refine or_congr_right (and_congr_left' ?_)
    rw [Option.eq_none_iff_forall_ne_some]
    exact forall_congr' fun other => not_congr (get?_ofEntries hbase)

theorem build_eq_of_mem_iff {topics topics' : List Topic} (policy : AliasPolicy)
    (hclaims : ∀ e, e ∈ topics.flatMap Topic.claims ↔ e ∈ topics'.flatMap Topic.claims)
    (hnames : ∀ e, e ∈ topics.flatMap Topic.packageClaims ↔
      e ∈ topics'.flatMap Topic.packageClaims) :
    ((∃ index, build topics policy = .ok index) ↔ ∃ index, build topics' policy = .ok index) ∧
    ∀ index index', build topics policy = .ok index → build topics' policy = .ok index' →
      index = index' := by
  have hbinding : ∀ e, e ∈ binding topics policy ↔ e ∈ binding topics' policy := by
    intro e
    cases policy with
    | preferSymbol => exact hclaims e
    | strict => simp only [binding, List.mem_append, hclaims, hnames]
  refine ⟨?_, ?_⟩
  · rw [exists_build_iff, exists_build_iff]
    exact ⟨fun h => h.mono fun e he => (hbinding e).2 he,
      fun h => h.mono fun e he => (hbinding e).1 he⟩
  · intro index index' h h'
    refine ext_get? fun space key => ?_
    refine Option.ext fun topic => ?_
    rw [get?_build h, get?_build h', hclaims, hnames]
    simp only [hclaims]

end AliasIndex

end DocTopics
