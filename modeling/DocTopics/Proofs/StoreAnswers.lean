import DocTopics.Proofs.AliasAgreement
import DocTopics.Proofs.SignatureMatch

/-!
# What a store answers

A query is read, resolved to a topic by the index, and answered with the document of that topic. So
the answers of the store of a run come from its topics: a document is always that of the one topic
of its identifier, and a topic without a document is reported as such.

## Main definitions

- `Store.LeadsTo` — the topic that the text of a query is resolved to
-/

namespace DocTopics

theorem Query.exists_of_ofText_eq_error {text : String} {e : LookupError}
    (h : Query.ofText text = .error e) : ∃ asked, e = .notFound asked := by
  simp only [Query.ofText] at h
  split at h
  · unfold Query.ofQualified at h
    split at h
    · cases h
    · cases h
    · cases h
    · cases h
      exact ⟨_, rfl⟩
  · split at h <;> cases h

namespace Store

variable {s : Store} {query id : String}

/-! ### Documents -/

theorem mem_of_find?_id {docs : List Rendered} {id : String} {doc : Rendered}
    (h : docs.reverse.find? (·.id == id) = some doc) : doc ∈ docs ∧ doc.id = id := by
  have hid := List.find?_some h
  exact ⟨List.mem_reverse.1 (List.mem_of_find?_eq_some h), beq_iff_eq.1 hid⟩

theorem document?_eq_some_iff {s : Store}
    (hinj : ∀ a ∈ s.documents, ∀ b ∈ s.documents, a.id = b.id → a = b) {id text : String} :
    s.document? id = some text ↔ ⟨id, text⟩ ∈ s.documents := by
  rw [document?, Option.map_eq_some_iff]
  constructor
  · rintro ⟨doc, hfind, rfl⟩
    obtain ⟨hmem, rfl⟩ := mem_of_find?_id hfind
    exact hmem
  · intro hmem
    have hsome : (s.documents.reverse.find? (·.id == id)).isSome :=
      List.find?_isSome.2 ⟨_, List.mem_reverse.2 hmem, beq_self_eq_true id⟩
    obtain ⟨doc, hfind⟩ := Option.isSome_iff_exists.1 hsome
    obtain ⟨hdoc, hid⟩ := mem_of_find?_id hfind
    exact ⟨doc, hfind, by rw [hinj doc hdoc _ hmem hid]⟩

/-- What a store answers depends on its index and on the documents of single topics. -/
theorem lookup_eq_of_document? {s s' : Store} (hindex : s.index = s'.index)
    (hdocument : ∀ id, s.document? id = s'.document? id) (query : String) :
    s.lookup query = s'.lookup query := by
  have hresolve : ∀ q, s.resolve q query = s'.resolve q query := by
    intro q
    cases q <;> simp only [resolve, resolveKey, resolveCombination, hindex]
  simp only [lookup, hresolve, hdocument]

/-- Where every topic has one document, the order in which a store holds them does not matter. -/
theorem lookup_eq_of_mem_iff {s s' : Store} (hindex : s.index = s'.index)
    (hmem : ∀ doc, doc ∈ s.documents ↔ doc ∈ s'.documents)
    (hinj : ∀ a ∈ s.documents, ∀ b ∈ s.documents, a.id = b.id → a = b) (query : String) :
    s.lookup query = s'.lookup query := by
  have hinj' : ∀ a ∈ s'.documents, ∀ b ∈ s'.documents, a.id = b.id → a = b :=
    fun a ha b hb => hinj a ((hmem a).2 ha) b ((hmem b).2 hb)
  refine lookup_eq_of_document? hindex (fun id => Option.ext fun text => ?_) query
  rw [document?_eq_some_iff hinj, document?_eq_some_iff hinj', hmem]

/-- In the store of topics with distinct identifiers, a topic has its own document or none. -/
theorem document?_ofTopics {index : AliasIndex} {topics : List Topic} (format : Format)
    (hinj : ∀ t ∈ topics, ∀ u ∈ topics, t.id = u.id → t = u) {t : Topic} (ht : t ∈ topics) :
    (ofTopics index topics format).document? t.id =
      if t.hasDocument then some (format.render t) else none := by
  have hunique : ∀ a ∈ (ofTopics index topics format).documents,
      ∀ b ∈ (ofTopics index topics format).documents, a.id = b.id → a = b := by
    intro a ha b hb hid
    obtain ⟨u, hu, rfl⟩ := List.mem_map.1 ha
    obtain ⟨v, hv, rfl⟩ := List.mem_map.1 hb
    rw [hinj u (List.mem_of_mem_filter hu) v (List.mem_of_mem_filter hv) hid]
  apply Option.ext
  intro text
  rw [document?_eq_some_iff hunique]
  constructor
  · intro hmem
    obtain ⟨u, hu, heq⟩ := List.mem_map.1 hmem
    obtain ⟨hu, hshown⟩ := List.mem_filter.1 hu
    rw [Rendered.mk.injEq] at heq
    obtain rfl : u = t := hinj u hu t ht heq.1
    rw [if_pos hshown, heq.2]
  · intro htext
    split at htext
    · rename_i hshown
      cases htext
      exact List.mem_map.2 ⟨t, List.mem_filter.2 ⟨ht, hshown⟩, rfl⟩
    · cases htext

/-! ### Resolving -/

/-- The query can be read, and is resolved to this topic. -/
def LeadsTo (s : Store) (query id : String) : Prop :=
  ∃ q, Query.ofText query = .ok q ∧ s.resolve q query = .ok id

/-- Whatever its shape, a query is resolved to the topic of an entry of the index. -/
theorem LeadsTo.exists_entry (h : s.LeadsTo query id) : ∃ e ∈ s.index.entries, e.topic = id := by
  obtain ⟨q, -, hresolve⟩ := h
  have hkey : ∀ space name, s.resolveKey space name query = .ok id →
      ∃ e ∈ s.index.entries, e.topic = id := by
    intro space name hkey
    unfold resolveKey at hkey
    split at hkey
    · rename_i topic hget
      cases hkey
      exact ⟨_, AliasIndex.get?_eq_some_iff.1 hget, rfl⟩
    · cases hkey
  cases q with
  | plain name => exact hkey .plain name hresolve
  | qualified space name => exact hkey space name hresolve
  | combination c =>
    have hanswer := answer_resolveCombination s c query
    rw [show s.resolveCombination c query = .ok id from hresolve] at hanswer
    have hmem : ∀ e ∈ s.index.entriesOf c.generic, e ∈ s.index.entries :=
      fun e he => List.mem_of_mem_filter he
    cases hanswer with
    | @exact front back e hentries hfirst he =>
      exact ⟨e, hmem e (hentries ▸ by simp), rfl⟩
    | @best n e hnone hmost honly =>
      have he : e ∈ (s.index.entriesOf c.generic).filter fun x => SharesTypes c.types x.types n := by
        rw [honly]
        exact List.mem_singleton_self e
      exact ⟨e, hmem e (List.mem_of_mem_filter he), rfl⟩

theorem resolve_ne_notRendered {q : Query} {text asked topic : String} :
    s.resolve q text ≠ .error (.notRendered asked topic) := by
  have hkey : ∀ space name, s.resolveKey space name text ≠ .error (.notRendered asked topic) := by
    intro space name h
    unfold resolveKey at h
    split at h <;> cases h
  cases q with
  | plain name => exact hkey .plain name
  | qualified space name => exact hkey space name
  | combination c =>
    intro h
    have hanswer := answer_resolveCombination s c text
    rw [show s.resolveCombination c text = .error (.notRendered asked topic) from h] at hanswer
    cases hanswer

/-! ### Answers -/

theorem lookup_eq_ok_iff {text : String} :
    s.lookup query = .ok ⟨id, text⟩ ↔ s.LeadsTo query id ∧ s.document? id = some text := by
  unfold lookup LeadsTo
  constructor
  · intro h
    obtain ⟨q, hq, h⟩ := bind_eq_ok_iff.1 h
    obtain ⟨topic, hresolve, h⟩ := bind_eq_ok_iff.1 h
    split at h
    · rename_i doc hdoc
      cases h
      exact ⟨⟨q, hq, hresolve⟩, hdoc⟩
    · cases h
  · rintro ⟨⟨q, hq, hresolve⟩, htext⟩
    refine bind_eq_ok_iff.2 ⟨q, hq, bind_eq_ok_iff.2 ⟨id, hresolve, ?_⟩⟩
    rw [htext]

theorem lookup_eq_notRendered_iff {asked : String} :
    s.lookup query = .error (.notRendered asked id) ↔
      asked = query ∧ s.LeadsTo query id ∧ s.document? id = none := by
  unfold lookup LeadsTo
  constructor
  · intro h
    rcases bind_eq_error_iff.1 h with h | ⟨q, hq, h⟩
    · obtain ⟨_, he⟩ := Query.exists_of_ofText_eq_error h
      cases he
    · rcases bind_eq_error_iff.1 h with h | ⟨topic, hresolve, h⟩
      · exact absurd h resolve_ne_notRendered
      · split at h
        · cases h
        · rename_i hnone
          cases h
          exact ⟨rfl, ⟨q, hq, hresolve⟩, hnone⟩
  · rintro ⟨rfl, ⟨q, hq, hresolve⟩, hnone⟩
    refine bind_eq_error_iff.2 (.inr ⟨q, hq, bind_eq_error_iff.2 (.inr ⟨id, hresolve, ?_⟩)⟩)
    rw [hnone]

end Store

theorem Topic.hasDocument_iff {t : Topic} :
    t.hasDocument = true ↔ t.noRd = false ∧ Text.blank t.titleText = false := by
  simp [Topic.hasDocument]

namespace Generated

variable {inputs : Inputs} {merged : List Topic} {m : Manual}

theorem exists_topic_of_entry (h : Generated inputs merged m) {e : AliasEntry}
    (he : e ∈ m.index.entries) : ∃ t ∈ m.topics, t.id = e.topic := by
  obtain ⟨t, ht, hid, -⟩ := h.exists_topic_of_get? (AliasIndex.get?_eq_some_iff.2 he)
  exact ⟨t, ht, hid⟩

/-- A query that is resolved at all leads to the one topic of an identifier, and the store has its
document exactly if one is wanted. -/
theorem exists_topic_of_leadsTo (h : Generated inputs merged m) {format : Format}
    {query id : String} (hquery : (Store.ofTopics m.index m.topics format).LeadsTo query id) :
    ∃ t, (m.topics.filter fun u => u.id = id) = [t] ∧
      (Store.ofTopics m.index m.topics format).document? id =
        if t.hasDocument then some (format.render t) else none := by
  obtain ⟨e, he, rfl⟩ := hquery.exists_entry
  obtain ⟨t, ht, hid⟩ := h.exists_topic_of_entry he
  rw [← hid]
  exact ⟨t, h.filter_id ht,
    Store.document?_ofTopics format (fun u hu v hv => h.eq_of_id hu hv) ht⟩

end Generated

/-- Every entry of the index names a topic of the run. A query that is resolved to a topic is
answered with the rendering of the only topic of that identifier if this has a document, and with
the report that there is none otherwise; no other query gets either answer. -/
theorem lookup_ofTopics_iff {inputs : Inputs} {m : Manual} (h : generate inputs = .ok m) :
    (∀ e ∈ m.index.entries, ∃ t ∈ m.topics, t.id = e.topic) ∧
    ∀ (format : Format) (query : String),
      (∀ id text, (Store.ofTopics m.index m.topics format).lookup query = .ok ⟨id, text⟩ ↔
        (Store.ofTopics m.index m.topics format).LeadsTo query id ∧
          ∃ t, (m.topics.filter fun u => u.id = id) = [t] ∧
            (t.noRd = false ∧ Text.blank t.titleText = false) ∧ text = format.render t) ∧
      ∀ asked id,
        (Store.ofTopics m.index m.topics format).lookup query = .error (.notRendered asked id) ↔
          asked = query ∧ (Store.ofTopics m.index m.topics format).LeadsTo query id ∧
            ∃ t, (m.topics.filter fun u => u.id = id) = [t] ∧
              ¬(t.noRd = false ∧ Text.blank t.titleText = false) := by
  obtain ⟨merged, hm⟩ := exists_generated h
  refine ⟨fun e => hm.exists_topic_of_entry, fun format query => ⟨fun id text => ?_, ?_⟩⟩
  · rw [Store.lookup_eq_ok_iff]
    apply and_congr_right
    intro hquery
    obtain ⟨t, hfilter, hdoc⟩ := hm.exists_topic_of_leadsTo hquery
    simp only [hdoc, hfilter, List.cons.injEq, and_true, exists_eq_left', ← Topic.hasDocument_iff]
    by_cases hshown : t.hasDocument = true <;> simp [hshown, eq_comm]
  · intro asked id
    rw [Store.lookup_eq_notRendered_iff]
    apply and_congr_right
    intro hasked
    apply and_congr_right
    intro hquery
    obtain ⟨t, hfilter, hdoc⟩ := hm.exists_topic_of_leadsTo hquery
    simp only [hdoc, hfilter, List.cons.injEq, and_true, exists_eq_left', ← Topic.hasDocument_iff]
    by_cases hshown : t.hasDocument = true <;> simp [hshown]

/-- Two methods of one generic, one without a document. -/
def areaMethods : Inputs :=
  { units := [⟨"R/a.R", "#' Area of a disk\nsetMethod(\"area\", \"Disk\", function(x) 1)\n\n" ++
      "#' Area of a ring\n#' @noRd\nsetMethod(\"area\", \"Ring\", function(x) 2)\n"⟩] }

theorem lookup_areaMethods :
    ∃ m text, generate areaMethods = .ok m ∧
      (Store.ofTopics m.index m.topics .rd).lookup "area(Disk)" = .ok ⟨"area,Disk-method", text⟩ ∧
      (∃ t, (m.topics.filter fun u => u.id = "area,Disk-method") = [t] ∧ text = Rd.render t) ∧
      (Store.ofTopics m.index m.topics .json).lookup "area(Ring)" =
        .error (.notRendered "area(Ring)" "area,Ring-method") ∧
      ∃ t, (m.topics.filter fun u => u.id = "area,Ring-method") = [t] ∧
        ¬(t.noRd = false ∧ Text.blank t.titleText = false) := by
  have heval : (generate areaMethods).toOption.map (fun m =>
      (((Store.ofTopics m.index m.topics .rd).lookup "area(Disk)").toOption.map (·.id),
        match (Store.ofTopics m.index m.topics .json).lookup "area(Ring)" with
        | .error e => some e
        | .ok _ => none)) =
      some (some "area,Disk-method",
        some (.notRendered "area(Ring)" "area,Ring-method")) := by decide +kernel
  obtain ⟨m, hgen, hresult⟩ := toOption_map_eq_some_iff.1 heval
  rw [Prod.mk.injEq] at hresult
  obtain ⟨hdisk, hring⟩ := hresult
  obtain ⟨⟨id, text⟩, hdisk, rfl⟩ := toOption_map_eq_some_iff.1 hdisk
  split at hring
  · rename_i e hring'
    cases hring
    obtain ⟨-, hanswers⟩ := lookup_ofTopics_iff hgen
    obtain ⟨-, t, ht, -, htext⟩ := ((hanswers .rd "area(Disk)").1 _ _).1 hdisk
    obtain ⟨-, -, hnone⟩ := ((hanswers .json "area(Ring)").2 _ _).1 hring'
    exact ⟨m, text, hgen, hdisk, ⟨t, ht, htext⟩, hring', hnone⟩
  · cases hring

end DocTopics
