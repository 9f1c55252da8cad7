import DocTopics.Proofs.AliasTable
import DocTopics.Proofs.OutputDir
import DocTopics.Proofs.StoreAnswers

/-!
# A build is looked up like the run it came from

A manual that was written and loaded again answers every query like the manual itself: with the same
document, or with the same error. The one thing that can come in between is a directory with the
name of a document, made on the way to a path that steps into the directory of the documents and out
again.
-/

namespace DocTopics

/-! ### Loading -/

namespace OutputDir

variable {m : Manual} {dir : String} {tree tree' made : FileTree} {summary : Summary}

/-- The documents of a build are loaded as they were written. -/
theorem exists_loadDocuments (h : Written (documents m dir .rd ++ tables m dir) made tree')
    (hmake : makeManDir tree dir = .ok made) (hclear : ClearOfDocuments tree dir)
    (hids : ∀ t ∈ m.shownTopics, Portable t.id)
    (hinj : ∀ t ∈ m.shownTopics, ∀ u ∈ m.shownTopics, t.id = u.id → t = u) :
    ∃ docs, loadDocuments tree' (manDir dir) = .ok docs ∧
      ∀ doc, doc ∈ docs ↔ doc ∈ m.shownTopics.map fun t => ⟨t.id, Rd.render t⟩ := by
  have hload : ∀ t ∈ m.shownTopics,
      ((readFile tree' (Path.join (manDir dir) (documentName .rd t))).map fun text =>
        Rendered.mk (Path.stem (documentName .rd t)) text) = .ok ⟨t.id, Rd.render t⟩ := by
    intro t ht
    refine map_eq_ok_iff.2 ⟨Rd.render t, ?_, by rw [(hids t ht).stem]⟩
    exact mapError_eq_ok_iff.2 (h.read_document hids hinj ht)
  have hnames : ∀ name, name ∈ (tree'.list (manDir dir)).filter
      (fun name => Path.extension? name == some Format.rd.extension) ↔
        ∃ t ∈ m.shownTopics, documentName .rd t = name := by
    intro name
    rw [List.mem_filter, beq_iff_eq]
    exact h.mem_list_iff hmake hclear hids hinj
  obtain ⟨docs, hdocs⟩ : ∃ docs, loadDocuments tree' (manDir dir) = .ok docs := by
    refine exists_mapM_iff.2 fun name hname => ?_
    obtain ⟨t, ht, rfl⟩ := (hnames name).1 hname
    exact ⟨_, hload t ht⟩
  refine ⟨docs, hdocs, fun doc => ?_⟩
  rw [mem_of_mapM hdocs, List.mem_map]
  constructor
  · rintro ⟨name, hname, hdoc⟩
    obtain ⟨t, ht, rfl⟩ := (hnames name).1 hname
    rw [hload t ht] at hdoc
    exact ⟨t, ht, Except.ok.inj hdoc⟩
  · rintro ⟨t, ht, rfl⟩
    exact ⟨_, (hnames _).2 ⟨t, ht, rfl⟩, hload t ht⟩

/-- Into whatever tree a manual is written, if no Rd name stood among its documents it is looked up
there as from memory. -/
theorem exists_load_of_write (hclear : ClearOfDocuments tree dir)
    (hwrite : write m dir .rd tree = .ok (summary, tree')) (hids : ∀ t ∈ m.topics, Portable t.id)
    (hinj : ∀ t ∈ m.topics, ∀ u ∈ m.topics, t.id = u.id → t = u)
    (hindex : ∀ e ∈ m.index.entries, e.Tabular) :
    ∃ store, load tree' dir = .ok store ∧ store.index = m.index ∧
      ∀ query, store.lookup query = (Store.ofTopics m.index m.topics .rd).lookup query := by
  obtain ⟨made, hmake, hwritten⟩ := written_of_write hclear hwrite
  have hshown : ∀ t ∈ m.shownTopics, t ∈ m.topics := fun t ht => List.mem_of_mem_filter ht
  have hids' : ∀ t ∈ m.shownTopics, Portable t.id := fun t ht => hids t (hshown t ht)
  have hinj' : ∀ t ∈ m.shownTopics, ∀ u ∈ m.shownTopics, t.id = u.id → t = u :=
    fun t ht u hu => hinj t (hshown t ht) u (hshown u hu)
  obtain ⟨docs, hdocs, hmem⟩ := exists_loadDocuments hwritten hmake hclear hids' hinj'
  have hdir := hwritten.keepsDirs.isDir (isDir_of_makeManDir hmake)
  have htable : readFile tree' (aliasTable dir) = .ok m.index.toTable :=
    mapError_eq_ok_iff.2 (hwritten.read_aliasTable hids')
  refine ⟨⟨m.index, docs⟩, ?_, rfl, Store.lookup_eq_of_mem_iff rfl hmem ?_⟩
  · refine bind_eq_ok_iff.2 ⟨_, htable, bind_eq_ok_iff.2 ⟨_, AliasIndex.ofTable_toTable hindex, ?_⟩⟩
    simp only [hdir, ↓reduceIte]
    exact bind_eq_ok_iff.2 ⟨docs, hdocs, rfl⟩
  · intro a ha b hb hid
    obtain ⟨t, ht, rfl⟩ := List.mem_map.1 ((hmem a).1 ha)
    obtain ⟨u, hu, rfl⟩ := List.mem_map.1 ((hmem b).1 hb)
    rw [hinj' t ht u hu hid]

/-- The index of a run can be kept as a table, if its keys and the identifiers of its topics can. -/
theorem tabular_of_generate {inputs : Inputs} (hm : generate inputs = .ok m)
    (hids : ∀ t ∈ m.topics, Portable t.id)
    (hkeys : ∀ e ∈ m.index.entries, '\t' ∉ e.key.toList ∧ '\n' ∉ e.key.toList) :
    ∀ e ∈ m.index.entries, e.Tabular := by
  intro e he
  obtain ⟨merged, hgenerated⟩ := exists_generated hm
  obtain ⟨t, ht, hid, -⟩ := hgenerated.exists_topic_of_get? (AliasIndex.get?_eq_some_iff.2 he)
  obtain ⟨htab, hnewline⟩ := hkeys e he
  refine ⟨htab, hnewline, ?_, ?_⟩
  · rw [← hid]
    exact (hids t ht).newline
  · rw [← hid]
    exact (hids t ht).last

/-- A manual that is written where no Rd name stands among its documents can be loaded, and then
every query is answered as from the run itself. In an empty tree this is so for every output
directory whose path does not step upward, and for all others that can be loaded at all. -/
theorem lookup_load_of_write {inputs : Inputs} (dir : String) (hm : generate inputs = .ok m)
    (hids : ∀ t ∈ m.topics, Portable t.id)
    (hkeys : ∀ e ∈ m.index.entries, '\t' ∉ e.key.toList ∧ '\n' ∉ e.key.toList) :
    (∀ tree summary tree', ClearOfDocuments tree dir →
      write m dir .rd tree = .ok (summary, tree') →
      ∃ store, load tree' dir = .ok store ∧ store.index = m.index ∧
        ∀ query, store.lookup query = (Store.ofTopics m.index m.topics .rd).lookup query) ∧
    (".." ∉ Text.splitOn '/' dir → ClearOfDocuments {} dir) ∧
    ∀ summary tree' store, write m dir .rd {} = .ok (summary, tree') →
      load tree' dir = .ok store → ClearOfDocuments {} dir := by
  obtain ⟨merged, hgenerated⟩ := exists_generated hm
  refine ⟨fun tree summary tree' hclear hwrite => ?_, clearOfDocuments_empty,
    fun summary tree' store => clearOfDocuments_of_load⟩
  exact exists_load_of_write hclear hwrite hids (fun t ht u hu => hgenerated.eq_of_id ht hu)
    (tabular_of_generate hm hids hkeys)

/-- A function with a document, and one without. -/
def areaAndHelper : Inputs :=
  { units := [⟨"R/a.R", "#' Area\n#' @export\narea <- function(shape) 0\n\n" ++
      "#' Internal\n#' @noRd\nhelper <- function() 1\n"⟩] }

theorem lookup_load_of_areaAndHelper :
    ∃ m summary tree store, generate areaAndHelper = .ok m ∧
      write m "out" .rd {} = .ok (summary, tree) ∧ load tree "out" = .ok store ∧
      m.index.entries.map (·.key) = ["area", "helper"] ∧
      ∀ query, store.lookup query = (Store.ofTopics m.index m.topics .rd).lookup query := by
  have heval : (generate areaAndHelper).toOption.map (fun m =>
      (decide (∀ t ∈ m.topics, Portable t.id),
        decide (∀ e ∈ m.index.entries, '\t' ∉ e.key.toList ∧ '\n' ∉ e.key.toList),
        m.index.entries.map (·.key), (write m "out" .rd {}).toOption.map fun _ => ())) =
      some (true, true, ["area", "helper"], some ()) := by decide +kernel
  obtain ⟨m, hgen, hresult⟩ := toOption_map_eq_some_iff.1 heval
  simp only [Prod.mk.injEq, decide_eq_true_eq] at hresult
  obtain ⟨hids, hkeys, hindex, hwrite⟩ := hresult
  obtain ⟨⟨summary, tree⟩, hwrite, -⟩ := toOption_map_eq_some_iff.1 hwrite
  obtain ⟨hagrees, hclear, -⟩ := lookup_load_of_write "out" hgen hids hkeys
  obtain ⟨store, hload, -, hlookup⟩ := hagrees {} summary tree (hclear (by decide)) hwrite
  exact ⟨m, summary, tree, store, hgen, hwrite, hload, hindex, hlookup⟩

/-- A path can step into the directory of the documents and out again. In an empty tree this makes a
directory with the name of a document, and the build cannot be loaded. -/
theorem exists_write_not_load :
    ∃ m summary tree, generate areaAndHelper = .ok m ∧ (∀ t ∈ m.topics, Portable t.id) ∧
      (∀ e ∈ m.index.entries, '\t' ∉ e.key.toList ∧ '\n' ∉ e.key.toList) ∧
      write m "man/x.Rd/../.." .rd {} = .ok (summary, tree) ∧
      ∀ store, load tree "man/x.Rd/../.." ≠ .ok store := by
  have heval : (generate areaAndHelper).toOption.map (fun m =>
      (decide (∀ t ∈ m.topics, Portable t.id),
        decide (∀ e ∈ m.index.entries, '\t' ∉ e.key.toList ∧ '\n' ∉ e.key.toList),
        (write m "man/x.Rd/../.." .rd {}).toOption.map fun result =>
          (load result.2 "man/x.Rd/../..").toOption.isNone)) =
      some (true, true, some true) := by decide +kernel
  obtain ⟨m, hgen, hresult⟩ := toOption_map_eq_some_iff.1 heval
  simp only [Prod.mk.injEq, decide_eq_true_eq] at hresult
  obtain ⟨hids, hkeys, hwrite⟩ := hresult
  obtain ⟨⟨summary, tree⟩, hwrite, hload⟩ := toOption_map_eq_some_iff.1 hwrite
  refine ⟨m, summary, tree, hgen, hids, hkeys, hwrite, fun store hstore => ?_⟩
  rw [hstore] at hload
  cases hload

end OutputDir

end DocTopics
