import DocTopics.Proofs.SignatureMatch
import DocTopics.Proofs.StoreAnswers
import DocTopics.Proofs.Trimming

/-!
# Keys as queries

Every key can be asked for. A text behind a question mark is looked up as it stands in the namespace
that the word in front of the mark names. The key of a combination is a query for itself: it reads
as its own generic and types, and no other key reads so.

## Main definitions

- `Combination.Readable` — a combination that its key spells
- `Store.topicFor` — the topic that the text of a query leads to

## Main statements

- `Combination.ofKey_key` — the key of a readable combination reads as the combination
- `Store.topicFor_combinationKey` — an exact key beats every other entry of its generic
- `Store.keys_reachable` — plain, package and class names, combinations, and listed candidates
-/

namespace DocTopics

/-! ### Keys of combinations -/

namespace Combination

/-- A type that can be read off a list of types: it is not empty, has no white space and no quote at
its ends, and no comma. -/
structure IsType (t : String) : Prop where
  ne_empty : t ≠ ""
  trim : Text.trim t = t
  noComma : ',' ∉ t.toList
  noQuoteFirst : t.toList.head?.any isQuote = false
  noQuoteLast : t.toList.getLast?.any isQuote = false

/-- A generic that is not empty, has no white space at its ends and no parenthesis that opens, with
types that can be told apart. -/
structure Readable (c : Combination) : Prop where
  ne_empty : c.generic ≠ ""
  trim : Text.trim c.generic = c.generic
  noParen : '(' ∉ c.generic.toList
  types : ∀ t ∈ c.types, IsType t

instance (t : String) : Decidable (IsType t) :=
  decidable_of_iff (t ≠ "" ∧ Text.trim t = t ∧ ',' ∉ t.toList ∧
      t.toList.head?.any isQuote = false ∧ t.toList.getLast?.any isQuote = false)
    ⟨fun ⟨h₁, h₂, h₃, h₄, h₅⟩ => ⟨h₁, h₂, h₃, h₄, h₅⟩,
      fun h => ⟨h.ne_empty, h.trim, h.noComma, h.noQuoteFirst, h.noQuoteLast⟩⟩

instance (c : Combination) : Decidable c.Readable :=
  decidable_of_iff (c.generic ≠ "" ∧ Text.trim c.generic = c.generic ∧ '(' ∉ c.generic.toList ∧
      ∀ t ∈ c.types, IsType t)
    ⟨fun ⟨h₁, h₂, h₃, h₄⟩ => ⟨h₁, h₂, h₃, h₄⟩,
      fun h => ⟨h.ne_empty, h.trim, h.noParen, h.types⟩⟩

theorem toList_key (c : Combination) :
    c.key.toList = c.generic.toList ++ '(' :: ((Text.join "," c.types).toList ++ [')']) := by
  simp [key]

theorem typeOf_toList {t : String} (h : IsType t) : typeOf t.toList = t.toList := by
  rw [typeOf, Text.trim_eq_self_iff.1 h.trim,
    Chars.strip_eq_self_iff.2 ⟨h.noQuoteFirst, h.noQuoteLast⟩]

theorem pieces_join_comma {types : List String} (hne : types ≠ [])
    (h : ∀ t ∈ types, ',' ∉ t.toList) :
    Chars.pieces (· == ',') (Text.join "," types).toList = types.map String.toList := by
  have hpiece : ∀ t ∈ types, ∀ c ∈ t.toList, (c == ',') = false := fun t ht =>
    Chars.forall_beq_eq_false_iff.2 (h t ht)
  fun_induction Text.join "," types with
  | case1 => exact absurd rfl hne
  | case2 t => exact Chars.pieces_of_forall (hpiece t (by simp))
  | case3 t u rest ih =>
    have hjoin : (t ++ "," ++ Text.join "," (u :: rest)).toList =
        t.toList ++ ',' :: (Text.join "," (u :: rest)).toList := by simp
    rw [hjoin, Chars.pieces_append _ (hpiece t (by simp)) (by decide), List.map_cons,
      ih (by simp) (fun v hv => h v (by simp [hv])) fun v hv => hpiece v (by simp [hv])]

/-- The types of a key are those it was made of. -/
theorem types_join {types : List String} (h : ∀ t ∈ types, IsType t) :
    (((Chars.pieces (· == ',') (Text.join "," types).toList).map typeOf).filter
      (!·.isEmpty)).map String.ofList = types := by
  by_cases hne : types = []
  · subst hne
    decide
  · have htypes : (types.map String.toList).map typeOf = types.map String.toList := by
      rw [List.map_map]
      exact List.map_congr_left fun t ht => typeOf_toList (h t ht)
    have hkept : ∀ cs ∈ types.map String.toList, (!cs.isEmpty) = true := by
      intro cs hcs
      obtain ⟨t, ht, rfl⟩ := List.mem_map.1 hcs
      simpa using (h t ht).ne_empty
    rw [pieces_join_comma hne fun t ht => (h t ht).noComma, htypes, List.filter_eq_self.2 hkept,
      List.map_map]
    simp

theorem blank_generic {c : Combination} (h : c.Readable) :
    Chars.blank c.generic.toList = false := by
  rw [Bool.eq_false_iff, Ne, ← Chars.trim_eq_nil_iff, Text.trim_eq_self_iff.1 h.trim,
    String.toList_eq_nil_iff]
  exact h.ne_empty

/-- The key of a readable combination reads as the combination. -/
theorem ofKey_key {c : Combination} (h : c.Readable) : ofKey c.key = some c := by
  have hcut : Chars.cutAt (· == '(') c.key.toList =
      some (c.generic.toList, (Text.join "," c.types).toList ++ [')']) := by
    rw [toList_key, Chars.cutAt_append (Chars.forall_beq_eq_false_iff.2 h.noParen) (by decide)]
  have hinner : withoutClosing ((Text.join "," c.types).toList ++ [')']) =
      some (Text.join "," c.types).toList := by
    simp [withoutClosing]
  simp only [ofKey, hcut, hinner, blank_generic h, Bool.false_eq_true, if_false,
    Text.trim_eq_self_iff.1 h.trim, String.ofList_toList, types_join h.types]

/-- A key has no white space around it. -/
theorem trim_key {c : Combination} (h : c.Readable) : Text.trim c.key = c.key := by
  rw [Text.trim_eq_self_iff, Chars.trim, Chars.strip_eq_self_iff]
  have hgeneric := Text.trim_eq_self_iff.1 h.trim
  rw [Chars.trim, Chars.strip_eq_self_iff] at hgeneric
  have hne : c.generic.toList ≠ [] := fun hnil => h.ne_empty (String.toList_eq_nil_iff.1 hnil)
  rw [toList_key, List.head?_append_of_ne_nil _ hne, ← List.cons_append, ← List.append_assoc,
    List.getLast?_concat]
  exact ⟨hgeneric.1, by decide⟩

end Combination

/-! ### Reading queries -/

namespace Query

-- The mark is part of `marked`, which is a literal in every use: with the empty qualifier,
-- `"" ++ "?"` would have to be evaluated to meet `"?"`.
/-- What stands in front of the first question mark is the qualifier. -/
theorem ofText_marked (marked qualifier : String) {name : String}
    (hmarked : marked = qualifier ++ "?") (hqualifier : '?' ∉ qualifier.toList)
    (hstart : marked.toList.head?.any isBlank = false) (hname : Text.trim name = name) :
    ofText (marked ++ name) = ofQualified (marked ++ name) qualifier name := by
  have htoList : (marked ++ name).toList = qualifier.toList ++ '?' :: name.toList := by
    rw [hmarked]
    simp
  have htrim : Text.trim (marked ++ name) = marked ++ name := by
    rw [Text.trim_eq_self_iff, Chars.trim, Chars.strip_eq_self_iff]
    constructor
    · rwa [String.toList_append, List.head?_append_of_ne_nil _ (by rw [hmarked]; simp)]
    · rw [Text.trim_eq_self_iff, Chars.trim, Chars.strip_eq_self_iff] at hname
      rcases hlast : name.toList with _ | ⟨c, cs⟩
      · -- the text ends with the mark
        rw [htoList, hlast, List.getLast?_concat]
        decide
      · rw [htoList, hlast, List.getLast?_append_of_ne_nil _ (by simp),
          List.getLast?_cons_of_ne_nil (by simp), ← hlast]
        exact hname.2
  have hcut : Text.cutAt (· == '?') (marked ++ name) = some (qualifier, name) := by
    rw [Text.cutAt, htoList,
      Chars.cutAt_append (Chars.forall_beq_eq_false_iff.2 hqualifier) (by decide)]
    simp
  simp only [ofText, htrim, hcut]

theorem ofText_qualified {name : String} (h : Text.trim name = name) :
    ofText ("?" ++ name) = .ok (.plain name) ∧
      ofText ("package?" ++ name) = .ok (.qualified .package name) ∧
      ofText ("class?" ++ name) = .ok (.qualified .classDef name) := by
  have htrim : Text.trim "" = "" ∧ Text.trim "package" = "package" ∧
      Text.trim "class" = "class" := by decide
  rw [ofText_marked "?" "" (by decide) (by decide) (by decide) h,
    ofText_marked "package?" "package" (by decide) (by decide) (by decide) h,
    ofText_marked "class?" "class" (by decide) (by decide) (by decide) h]
  simp only [ofQualified, htrim, h, and_self]

/-- The key of a combination is a query for the combination. -/
theorem ofText_key {c : Combination} (h : c.Readable) (hmark : '?' ∉ c.key.toList) :
    ofText c.key = .ok (.combination c) := by
  have hcut : Text.cutAt (· == '?') c.key = none := by
    rw [Text.cutAt, Chars.cutAt_eq_none_iff.2 (Chars.forall_beq_eq_false_iff.2 hmark),
      Option.map_none]
  simp only [ofText, Combination.trim_key h, hcut, Combination.ofKey_key h]

end Query

/-! ### Resolving keys -/

namespace Store

/-- The topic that the text of a query leads to. -/
def topicFor (s : Store) (text : String) : Except LookupError String := do
  let query ← Query.ofText text
  s.resolve query text

theorem resolveKey_eq (s : Store) (space : Namespace) (name text : String) :
    s.resolveKey space name text =
      (s.index.get? space name).elim (.error (.notFound text)) .ok := by
  unfold resolveKey
  cases s.index.get? space name <;> rfl

theorem topicFor_of_ofText {s : Store} {text : String} {query : Query}
    (h : Query.ofText text = .ok query) : s.topicFor text = s.resolve query text := by
  rw [topicFor, h]
  rfl

variable {s : Store}

/-- The entries of a generic have the keys that their types spell. -/
theorem key_eq_of_mem_entriesOf
    (hkeys : ∀ e ∈ s.index.entries, e.space = .combination →
      ∃ c : Combination, c.Readable ∧ e.key = c.key)
    {generic : String} {e : AliasEntry} (he : e ∈ s.index.entriesOf generic) :
    e.key = Combination.key ⟨generic, e.types⟩ := by
  obtain ⟨hmem, hof⟩ := List.mem_filter.1 he
  obtain ⟨hspace, hgeneric⟩ := of_decide_eq_true hof
  obtain ⟨c, hc, hkey⟩ := hkeys e hmem hspace
  have hread : Combination.ofKey e.key = some c := by rw [hkey, Combination.ofKey_key hc]
  rw [hread, Option.map_some, Option.some_inj] at hgeneric
  rw [AliasEntry.types, hread, Option.map_some, Option.getD_some, hkey, ← hgeneric]

/-- An entry answers for its own key, whatever other entries its generic has. -/
theorem topicFor_combinationKey
    (hkeys : ∀ e ∈ s.index.entries, e.space = .combination →
      ∃ c : Combination, c.Readable ∧ e.key = c.key)
    {key topic : String} (hget : s.index.get? .combination key = some topic)
    (hmark : '?' ∉ key.toList) : s.topicFor key = .ok topic := by
  have hentry := AliasIndex.get?_eq_some_iff.1 hget
  obtain ⟨c, hc, rfl⟩ := hkeys _ hentry rfl
  have hread := Combination.ofKey_key hc
  have hof : (⟨.combination, c.key, topic⟩ : AliasEntry) ∈ s.index.entriesOf c.generic := by
    refine List.mem_filter.2 ⟨hentry, decide_eq_true ⟨rfl, ?_⟩⟩
    rw [hread, Option.map_some]
  obtain ⟨front, back, hsplit⟩ := List.append_of_mem hof
  rw [topicFor_of_ofText (Query.ofText_key hc hmark)]
  refine resolveCombination_of_answer (.exact hsplit ?_ ?_)
  · -- an entry of the same types would have the same key
    intro x hx htypes
    have hxof : x ∈ s.index.entriesOf c.generic := hsplit ▸ List.mem_append_left _ hx
    have hsorted := s.index.pairwise_entriesOf c.generic
    rw [hsplit] at hsorted
    have hlt := (List.pairwise_append.1 hsorted).2.2 x hx _ List.mem_cons_self
    rw [key_eq_of_mem_entriesOf hkeys hxof, htypes] at hlt
    exact String.lt_irrefl _ hlt
  · rw [AliasEntry.types, hread, Option.map_some, Option.getD_some]

/-- The candidates of an ambiguous query are combinations of one generic. -/
theorem exists_entry_of_ambiguous {text asked : String} {candidates : List String}
    (h : s.topicFor text = .error (.ambiguous asked candidates)) :
    ∃ generic, ∀ key ∈ candidates, ∃ e ∈ s.index.entriesOf generic,
      key = Combination.key ⟨generic, e.types⟩ := by
  -- a lookup under one key finds one topic or none
  have hkey : ∀ space name,
      s.resolveKey space name text ≠ .error (.ambiguous asked candidates) := by
    intro space name hresolve
    rw [resolveKey_eq] at hresolve
    cases hget : s.index.get? space name <;> rw [hget] at hresolve <;> cases hresolve
  rcases bind_eq_error_iff.1 h with hread | ⟨query, -, hresolve⟩
  · obtain ⟨_, he⟩ := Query.exists_of_ofText_eq_error hread
    cases he
  · cases query with
    | plain name => exact absurd hresolve (hkey .plain name)
    | qualified space name => exact absurd hresolve (hkey space name)
    | combination c =>
      have hanswer := answer_resolveCombination s c text
      rw [show s.resolveCombination c text = .error (.ambiguous asked candidates) from hresolve]
        at hanswer
      refine ⟨c.generic, fun key hcandidate => ?_⟩
      cases hanswer with
      | ambiguous hnone hmost hseveral =>
        obtain ⟨e, he, rfl⟩ := List.mem_map.1 hcandidate
        exact ⟨e, List.mem_of_mem_filter he, rfl⟩

/-- Every key can be asked for. A name without white space around it leads to what the index has for
it behind `?`, `package?` and `class?`. Where all combination keys are readable, a key without a
question mark leads to its own topic whatever else the index holds, and so does every candidate that
an ambiguous query lists. -/
theorem keys_reachable (s : Store) :
    (∀ k, Text.trim k = k →
      s.topicFor ("?" ++ k) =
        (s.index.get? .plain k).elim (.error (.notFound ("?" ++ k))) .ok ∧
      s.topicFor ("package?" ++ k) =
        (s.index.get? .package k).elim (.error (.notFound ("package?" ++ k))) .ok ∧
      s.topicFor ("class?" ++ k) =
        (s.index.get? .classDef k).elim (.error (.notFound ("class?" ++ k))) .ok) ∧
    ((∀ e ∈ s.index.entries, e.space = .combination →
        ∃ c : Combination, c.Readable ∧ e.key = c.key) →
      (∀ key topic, s.index.get? .combination key = some topic → '?' ∉ key.toList →
        s.topicFor key = .ok topic) ∧
      ∀ text asked candidates, s.topicFor text = .error (.ambiguous asked candidates) →
        ∀ key ∈ candidates, '?' ∉ key.toList →
          ∃ topic, s.index.get? .combination key = some topic ∧ s.topicFor key = .ok topic) := by
  refine ⟨fun k hk => ?_, fun hkeys => ⟨?_, ?_⟩⟩
  · obtain ⟨hplain, hpackage, hclass⟩ := Query.ofText_qualified hk
    rw [topicFor_of_ofText hplain, topicFor_of_ofText hpackage, topicFor_of_ofText hclass]
    exact ⟨resolveKey_eq .., resolveKey_eq .., resolveKey_eq ..⟩
  · intro key topic hget hmark
    exact topicFor_combinationKey hkeys hget hmark
  · intro text asked candidates hambiguous key hkey hmark
    obtain ⟨generic, hcandidates⟩ := exists_entry_of_ambiguous hambiguous
    obtain ⟨e, he, rfl⟩ := hcandidates key hkey
    obtain ⟨hmem, hof⟩ := List.mem_filter.1 he
    have hget : s.index.get? .combination e.key = some e.topic := by
      rw [AliasIndex.get?_eq_some_iff, ← (of_decide_eq_true hof).1]
      exact hmem
    rw [key_eq_of_mem_entriesOf hkeys he] at hget
    exact ⟨e.topic, hget, topicFor_combinationKey hkeys hget hmark⟩

/-- Names in all four namespaces; the combinations have an operator, a type with parentheses, no
types at all, and two signatures that start alike. -/
def shapes : Store :=
  { index :=
      { entries :=
          [⟨.plain, "area", "area"⟩, ⟨.package, "shapes", "shapes-package"⟩,
            ⟨.classDef, "Disk", "Disk-class"⟩, ⟨.combination, "+(Disk,list(x))", "plus"⟩,
            ⟨.combination, "area()", "area"⟩, ⟨.combination, "area(Disk,Box)", "area-box"⟩,
            ⟨.combination, "area(Disk,Ring)", "area-ring"⟩]
        sorted := by decide } }

theorem keys_reachable_shapes :
    (∀ e ∈ shapes.index.entries, e.space = .combination →
      ∃ c : Combination, c.Readable ∧ e.key = c.key) ∧
    Text.trim "Disk" = "Disk" ∧
    shapes.topicFor "?Disk" = .error (.notFound "?Disk") ∧
    shapes.topicFor "package?Disk" = .error (.notFound "package?Disk") ∧
    shapes.topicFor "class?Disk" = .ok "Disk-class" ∧
    shapes.topicFor "+(Disk,list(x))" = .ok "plus" ∧
    shapes.topicFor "area()" = .ok "area" ∧
    shapes.topicFor " area( Disk )" =
      .error (.ambiguous " area( Disk )" ["area(Disk,Box)", "area(Disk,Ring)"]) ∧
    shapes.topicFor "area(Disk,Ring)" = .ok "area-ring" := by
  have hentries : ∀ e ∈ shapes.index.entries, e.space = .combination →
      ∃ c ∈ (Combination.ofKey e.key).toList, c.Readable ∧ e.key = c.key := by decide
  have hkeys : ∀ e ∈ shapes.index.entries, e.space = .combination →
      ∃ c : Combination, c.Readable ∧ e.key = c.key := fun e he hspace =>
    let ⟨c, _, hc⟩ := hentries e he hspace
    ⟨c, hc⟩
  have hdisk : Text.trim "Disk" = "Disk" := by decide
  have hambiguous : shapes.topicFor " area( Disk )" =
      .error (.ambiguous " area( Disk )" ["area(Disk,Box)", "area(Disk,Ring)"]) := by rfl
  obtain ⟨hnames, hcombinations⟩ := keys_reachable shapes
  obtain ⟨hplain, hpackage, hclass⟩ := hnames "Disk" hdisk
  obtain ⟨hexact, hcandidates⟩ := hcombinations hkeys
  obtain ⟨topic, hget, hring⟩ :=
    hcandidates _ _ _ hambiguous "area(Disk,Ring)" (by simp) (by decide)
  obtain rfl : topic = "area-ring" := Option.some_inj.1 (hget.symm.trans (by decide))
  exact ⟨hkeys, hdisk, hplain, hpackage, hclass, hexact _ _ (by decide) (by decide),
    hexact _ _ (by decide) (by decide), hambiguous, hring⟩

end Store

end DocTopics
