import DocTopics.Proofs.AliasAgreement

/-!
# Keys and the topics that claim them

Which keys a topic claims can be said without an index: its identifier, its aliases, and what its
declarations are known by. An index exists exactly if no key is claimed by topics of two
identifiers, and then it holds the claimed keys and nothing else, except for the names of packages
that yield to symbols.

## Main definitions

- `Topic.ClaimsKey` — a topic claims a key under a policy

## Main statements

- `AliasIndex.build_iff_claimsKey` — when topics have an index, and what is in it
-/

namespace DocTopics

namespace Topic

/-- A topic claims a key of a namespace. -/
inductive ClaimsKey (policy : AliasPolicy) (t : Topic) : Namespace → String → Prop
  | id : ClaimsKey policy t .plain t.id
  | otherName {a : String} (ha : a ∈ t.aliases) : ClaimsKey policy t .plain a
  | combination {d : Subject} {name : String} (hd : d ∈ t.subjects)
      (hname : d.declaration.name = some name) (hkind : d.declaration.kind = .method)
      (hdispatch : d.declaration.dispatch ≠ []) :
      ClaimsKey policy t .combination (Combination.key ⟨name, d.declaration.dispatch⟩)
  | packagePlain {d : Subject} {name : String} (hd : d ∈ t.subjects)
      (hname : d.declaration.name = some name) (htype : t.docType = .package) :
      ClaimsKey policy t .plain ("package-" ++ name)
  | package {d : Subject} {name : String} (hd : d ∈ t.subjects)
      (hname : d.declaration.name = some name) (htype : t.docType = .package) :
      ClaimsKey policy t .package name
  | classPlain {d : Subject} {name : String} (hd : d ∈ t.subjects)
      (hname : d.declaration.name = some name) (htype : t.docType = .classDef) :
      ClaimsKey policy t .plain (name ++ "-class")
  | classDef {d : Subject} {name : String} (hd : d ∈ t.subjects)
      (hname : d.declaration.name = some name) (htype : t.docType = .classDef) :
      ClaimsKey policy t .classDef name
  | display {d : Subject} {name : String} (hd : d ∈ t.subjects)
      (hname : d.displayName = some name) (hpackage : t.docType ≠ .package)
      (hclass : t.docType ≠ .classDef) : ClaimsKey policy t .plain name
  /-- The plain name of a package, unless symbols are preferred. -/
  | packageName {d : Subject} {name : String} (hstrict : policy = .strict) (hd : d ∈ t.subjects)
      (hname : d.declaration.name = some name) (htype : t.docType = .package) :
      ClaimsKey policy t .plain name

theorem mem_claims_of_subject {t : Topic} {d : Subject} {e : AliasEntry} (hd : d ∈ t.subjects)
    (he : e ∈ d.claims t.docType t.id) : e ∈ t.claims :=
  mem_claims.2 (.inr (.inr ⟨d, hd, he⟩))

/-- The claims of a topic as entries of an index. -/
theorem claimsKey_iff {policy : AliasPolicy} {t : Topic} {space : Namespace} {key : String} :
    t.ClaimsKey policy space key ↔
      ⟨space, key, t.id⟩ ∈ t.claims ∨
        (policy = .strict ∧ ⟨space, key, t.id⟩ ∈ t.packageClaims) := by
  constructor
  · intro h
    cases h with
    | id => exact .inl (mem_claims.2 (.inl rfl))
    | otherName ha => exact .inl (mem_claims.2 (.inr (.inl ⟨_, ha, rfl⟩)))
    | combination hd hname hkind hdispatch =>
      refine .inl (mem_claims_of_subject hd (Subject.mem_claims.2 (.inl ⟨_, ?_, rfl⟩)))
      exact Subject.combination?_eq_some_iff.2 ⟨_, hname, hkind, hdispatch, rfl⟩
    | packagePlain hd hname htype =>
      refine .inl (mem_claims_of_subject hd (Subject.mem_claims.2 (.inr (.inl ?_))))
      exact ⟨htype, _, hname, .inl rfl⟩
    | package hd hname htype =>
      refine .inl (mem_claims_of_subject hd (Subject.mem_claims.2 (.inr (.inl ?_))))
      exact ⟨htype, _, hname, .inr rfl⟩
    | classPlain hd hname htype =>
      refine .inl (mem_claims_of_subject hd (Subject.mem_claims.2 (.inr (.inr (.inl ?_)))))
      exact ⟨htype, _, hname, .inl rfl⟩
    | classDef hd hname htype =>
      refine .inl (mem_claims_of_subject hd (Subject.mem_claims.2 (.inr (.inr (.inl ?_)))))
      exact ⟨htype, _, hname, .inr rfl⟩
    | display hd hname hpackage hclass =>
      refine .inl (mem_claims_of_subject hd (Subject.mem_claims.2 (.inr (.inr (.inr ?_)))))
      exact ⟨hpackage, hclass, _, hname, rfl⟩
    | packageName hstrict hd hname htype =>
      exact .inr ⟨hstrict, mem_packageClaims.2 ⟨htype, _, hd, _, hname, rfl⟩⟩
  · rintro (hclaim | ⟨hstrict, hname⟩)
    · obtain hid | ⟨a, ha, he⟩ | ⟨d, hd, he⟩ := mem_claims.1 hclaim
      · cases hid
        exact .id
      · cases he
        exact .otherName ha
      · obtain ⟨c, hc, he⟩ | ⟨htype, name, hname, he | he⟩ | ⟨htype, name, hname, he | he⟩ |
          ⟨hpackage, hclass, name, hname, he⟩ := Subject.mem_claims.1 he
        · obtain ⟨name, hname, hkind, hdispatch, rfl⟩ := Subject.combination?_eq_some_iff.1 hc
          cases he
          exact .combination hd hname hkind hdispatch
        · cases he
          exact .packagePlain hd hname htype
        · cases he
          exact .package hd hname htype
        · cases he
          exact .classPlain hd hname htype
        · cases he
          exact .classDef hd hname htype
        · cases he
          exact .display hd hname hpackage hclass
    · obtain ⟨htype, d, hd, name, hname, he⟩ := mem_packageClaims.1 hname
      cases he
      exact .packageName hstrict hd hname htype

end Topic

namespace AliasIndex

/-- Entries that topics make for themselves. -/
theorem mem_flatMap_iff {f : Topic → List AliasEntry} (hf : ∀ t, ∀ e ∈ f t, e.topic = t.id)
    {topics : List Topic} {space : Namespace} {key id : String} :
    ⟨space, key, id⟩ ∈ topics.flatMap f ↔ ∃ t ∈ topics, t.id = id ∧ ⟨space, key, t.id⟩ ∈ f t := by
  rw [List.mem_flatMap]
  refine exists_congr fun t => and_congr_right fun _ => ⟨fun he => ?_, ?_⟩
  · have hid : id = t.id := hf t _ he
    exact ⟨hid.symm, hid ▸ he⟩
  · rintro ⟨rfl, he⟩
    exact he

theorem mem_binding_iff {topics : List Topic} {policy : AliasPolicy} {space : Namespace}
    {key id : String} :
    ⟨space, key, id⟩ ∈ binding topics policy ↔
      ∃ t ∈ topics, t.id = id ∧ t.ClaimsKey policy space key := by
  have hclaims : ⟨space, key, id⟩ ∈ topics.flatMap Topic.claims ↔
      ∃ t ∈ topics, t.id = id ∧ ⟨space, key, t.id⟩ ∈ t.claims :=
    mem_flatMap_iff fun t e => Topic.topic_of_mem_claims
  have hnames : ⟨space, key, id⟩ ∈ topics.flatMap Topic.packageClaims ↔
      ∃ t ∈ topics, t.id = id ∧ ⟨space, key, t.id⟩ ∈ t.packageClaims :=
    mem_flatMap_iff fun t e => Topic.topic_of_mem_packageClaims
  simp only [Topic.claimsKey_iff]
  cases policy with
  | preferSymbol => simp only [binding, hclaims, reduceCtorEq, false_and, or_false]
  | strict =>
    simp only [binding, List.mem_append, hclaims, hnames, true_and, and_or_left, exists_or]

theorem mem_packageNames_iff {topics : List Topic} {space : Namespace} {key id : String} :
    ⟨space, key, id⟩ ∈ topics.flatMap Topic.packageClaims ↔
      space = .plain ∧ ∃ t ∈ topics, t.id = id ∧ t.docType = .package ∧
        ∃ d ∈ t.subjects, d.declaration.name = some key := by
  rw [mem_flatMap_iff fun t e => Topic.topic_of_mem_packageClaims]
  simp only [Topic.mem_packageClaims, AliasEntry.mk.injEq]
  constructor
  · rintro ⟨t, ht, hid, htype, d, hd, name, hname, rfl, rfl, -⟩
    exact ⟨rfl, t, ht, hid, htype, d, hd, hname⟩
  · rintro ⟨rfl, t, ht, hid, htype, d, hd, hname⟩
    exact ⟨t, ht, hid, htype, d, hd, key, hname, rfl, rfl, trivial⟩

theorem get?_build_iff_claimsKey {topics : List Topic} {policy : AliasPolicy} {index : AliasIndex}
    (h : build topics policy = .ok index) {space : Namespace} {key id : String} :
    index.get? space key = some id ↔
      (∃ t ∈ topics, t.id = id ∧ t.ClaimsKey policy space key) ∨
      (policy = .preferSymbol ∧ space = .plain ∧ (∀ t ∈ topics, ¬t.ClaimsKey policy .plain key) ∧
        ∃ t ∈ topics, t.id = id ∧ t.docType = .package ∧
          ∃ d ∈ t.subjects, d.declaration.name = some key) := by
  cases policy with
  | strict =>
    rw [build_strict] at h
    rw [get?_ofEntries h, mem_binding_iff]
    simp only [reduceCtorEq, false_and, or_false]
  | preferSymbol =>
    have hclaimed : ∀ other, ⟨space, key, other⟩ ∈ topics.flatMap Topic.claims ↔
        ∃ t ∈ topics, t.id = other ∧ t.ClaimsKey .preferSymbol space key :=
      fun other => @mem_binding_iff topics .preferSymbol space key other
    rw [get?_build h, hclaimed, mem_packageNames_iff]
    refine or_congr_right ⟨?_, ?_⟩
    · rintro ⟨hfree, rfl, hname⟩
      refine ⟨rfl, rfl, fun t ht hclaim => ?_, hname⟩
      exact hfree t.id ((hclaimed t.id).2 ⟨t, ht, rfl, hclaim⟩)
    · rintro ⟨-, rfl, hfree, hname⟩
      refine ⟨fun other hother => ?_, rfl, hname⟩
      obtain ⟨t, ht, -, hclaim⟩ := (hclaimed other).1 hother
      exact hfree t ht hclaim

theorem build_eq_ok_of_perm {topics topics' : List Topic} {policy : AliasPolicy}
    {index : AliasIndex} (hperm : topics.Perm topics') (h : build topics policy = .ok index) :
    build topics' policy = .ok index := by
  obtain ⟨hexists, hequal⟩ := build_eq_of_mem_iff policy
    (fun _ => (hperm.flatMap_right Topic.claims).mem_iff)
    (fun _ => (hperm.flatMap_right Topic.packageClaims).mem_iff)
  obtain ⟨index', h'⟩ := hexists.1 ⟨index, h⟩
  rwa [hequal index index' h h']

/-- Topics have an index exactly if no key is claimed by topics of two identifiers. A key leads to
a topic exactly if this claims it, or, where symbols are preferred, if no topic claims it and it is
the plain name of a package that this topic documents. The order of the topics does not matter. -/
theorem build_iff_claimsKey (topics : List Topic) (policy : AliasPolicy) :
    ((∃ index, build topics policy = .ok index) ↔
      ∀ t ∈ topics, ∀ u ∈ topics, ∀ space key,
        t.ClaimsKey policy space key → u.ClaimsKey policy space key → t.id = u.id) ∧
    (∀ index, build topics policy = .ok index → ∀ space key id,
      index.get? space key = some id ↔
        (∃ t ∈ topics, t.id = id ∧ t.ClaimsKey policy space key) ∨
        (policy = .preferSymbol ∧ space = .plain ∧
          (∀ t ∈ topics, ¬t.ClaimsKey policy .plain key) ∧
          ∃ t ∈ topics, t.id = id ∧ t.docType = .package ∧
            ∃ d ∈ t.subjects, d.declaration.name = some key)) ∧
    ∀ topics', topics.Perm topics' →
      ∀ index, build topics policy = .ok index ↔ build topics' policy = .ok index := by
  refine ⟨?_, ?_, ?_⟩
  · rw [exists_build_iff]
    constructor
    · intro hcons t ht u hu space key htk huk
      exact hcons space key t.id u.id (mem_binding_iff.2 ⟨t, ht, rfl, htk⟩)
        (mem_binding_iff.2 ⟨u, hu, rfl, huk⟩)
    · intro hsame space key _ _ hfirst hsecond
      obtain ⟨t, ht, rfl, htk⟩ := mem_binding_iff.1 hfirst
      obtain ⟨u, hu, rfl, huk⟩ := mem_binding_iff.1 hsecond
      exact hsame t ht u hu space key htk huk
  · intro index h space key id
    exact get?_build_iff_claimsKey h
  · intro topics' hperm index
    exact ⟨build_eq_ok_of_perm hperm, build_eq_ok_of_perm hperm.symm⟩

/-- A method of the generic `area`. -/
def areaOfDisk : Subject :=
  { declaration := { kind := .method, name := some "area", dispatch := ["Disk"] } }

/-- A package, a function of the same name, and a method. -/
def packageAndSymbols : List Topic :=
  [{ id := "pk-package", pos := ⟨"R/a.R", 1⟩, docType := .package,
     subjects := [{ declaration := { kind := .sentinel .package, name := some "pk" } }] },
   { id := "pk", pos := ⟨"R/b.R", 1⟩, docType := .function,
     subjects := [{ declaration := { kind := .function, name := some "pk" } }] },
   { id := "area", pos := ⟨"R/c.R", 1⟩, docType := .method, subjects := [areaOfDisk] }]

theorem build_packageAndSymbols :
    (∃ index, build packageAndSymbols .preferSymbol = .ok index ∧
      index.get? .plain "pk" = some "pk" ∧ index.get? .package "pk" = some "pk-package" ∧
      index.get? .combination "area(Disk)" = some "area" ∧
      build packageAndSymbols.reverse .preferSymbol = .ok index) ∧
    ¬∃ index, build packageAndSymbols .strict = .ok index := by
  have heval : (build packageAndSymbols .preferSymbol).toOption.map (fun _ => ()) = some () := by
    decide +kernel
  obtain ⟨index, hbuild, -⟩ := toOption_map_eq_some_iff.1 heval
  obtain ⟨-, hget, hperm⟩ := build_iff_claimsKey packageAndSymbols .preferSymbol
  have hkey : "area(Disk)" = Combination.key ⟨"area", ["Disk"]⟩ := by decide +kernel
  refine ⟨⟨index, hbuild, ?_, ?_, ?_, ?_⟩, ?_⟩
  · exact (hget index hbuild .plain _ _).2
      (.inl ⟨_, List.mem_cons_of_mem _ List.mem_cons_self, rfl, .id⟩)
  · exact (hget index hbuild .package _ _).2
      (.inl ⟨_, List.mem_cons_self, rfl, .package List.mem_cons_self rfl rfl⟩)
  · rw [hkey]
    exact (hget index hbuild .combination _ _).2
      (.inl ⟨_, List.mem_cons_of_mem _ (List.mem_cons_of_mem _ List.mem_cons_self), rfl,
        .combination (d := areaOfDisk) List.mem_cons_self rfl rfl (List.cons_ne_nil _ _)⟩)
  · exact (hperm _ (List.reverse_perm packageAndSymbols).symm index).1 hbuild
  · rw [(build_iff_claimsKey packageAndSymbols .strict).1]
    intro hsame
    have hid := hsame _ List.mem_cons_self _ (List.mem_cons_of_mem _ List.mem_cons_self) .plain "pk"
      (.packageName rfl List.mem_cons_self rfl rfl) .id
    exact absurd hid (by decide)

end AliasIndex

end DocTopics
