import DocTopics.Manual.OutputDir
import DocTopics.Proofs.FileContents

/-!
# What writing a manual leaves

The tree behind a build, from the files that were written. Two files never stand at one place,
since the names of all documents and tables differ.

## Main definitions

- `OutputDir.Written` — what writing a list of files does to a tree
- `OutputDir.Portable` — identifiers that can be told from the name of their document
- `OutputDir.ClearOfDocuments` — no Rd name stands where the documents are to be written
-/

namespace DocTopics.OutputDir

variable {tree tree' made : FileTree} {loc : Location} {outs : List Output} {out : Output}

/-! ### Writing files -/

theorem writeOutput_eq_ok_iff :
    writeOutput tree out = .ok tree' ↔
      ∃ loc, tree.locate out.path = .ok loc ∧ tree.get? loc ≠ some .dir ∧
        tree' = tree.put loc (.file (.text out.text)) :=
  mapError_eq_ok_iff.trans FileTree.write_eq_ok_iff

/-- What writing files one by one does to a tree. Where they stand is told by the tree behind. -/
structure Written (outs : List Output) (tree tree' : FileTree) : Prop where
  keepsDirs : FileTree.KeepsDirs tree tree'
  located : ∀ out ∈ outs, ∃ loc, tree'.locate out.path = .ok loc
  unchanged : ∀ loc, (∀ out ∈ outs, tree'.locate out.path ≠ .ok loc) →
    tree'.get? loc = tree.get? loc
  text : ∀ out ∈ outs, ∀ loc, tree'.locate out.path = .ok loc →
    (∀ other ∈ outs, tree'.locate other.path = .ok loc → other.text = out.text) →
    tree'.get? loc = some (.file (.text out.text))

/-- One more file in front: it stays where no later file is written to its place. -/
theorem Written.cons {mid : FileTree} (hfirst : writeOutput tree out = .ok mid)
    (h : Written outs mid tree') : Written (out :: outs) tree tree' := by
  obtain ⟨place, hplace, hfree, rfl⟩ := writeOutput_eq_ok_iff.1 hfirst
  have hroot := FileTree.isRoot_of_get? hfree
  have hkeeps := (FileTree.keepsDirs_put hfree).trans h.keepsDirs
  have hplace' : tree'.locate out.path = .ok place := hkeeps.locate hplace
  refine ⟨hkeeps, List.forall_mem_cons.2 ⟨⟨place, hplace'⟩, h.located⟩, ?_, ?_⟩
  · intro loc hloc
    obtain ⟨hout, houts⟩ := List.forall_mem_cons.1 hloc
    have hne : loc ≠ place := by
      rintro rfl
      exact hout hplace'
    rw [h.unchanged loc houts, FileTree.get?_put hroot, if_neg hne]
  · intro file hfile loc hloc hsame
    obtain ⟨-, houts⟩ := List.forall_mem_cons.1 hsame
    by_cases hlater : ∃ other ∈ outs, tree'.locate other.path = .ok loc
    · obtain ⟨other, hother, hotherLoc⟩ := hlater
      have htext : other.text = file.text := houts other hother hotherLoc
      rw [← htext]
      refine h.text other hother loc hotherLoc fun another hanother hanotherLoc => ?_
      rw [houts another hanother hanotherLoc, htext]
    · push Not at hlater
      rcases List.mem_cons.1 hfile with rfl | hfile
      · obtain rfl : place = loc := by
          rw [hplace'] at hloc
          exact Except.ok.inj hloc
        rw [h.unchanged place hlater, FileTree.get?_put hroot, if_pos rfl]
      · exact absurd hloc (hlater file hfile)

theorem written_of_foldlM (h : outs.foldlM writeOutput tree = .ok tree') :
    Written outs tree tree' := by
  induction outs generalizing tree with
  | nil =>
    cases h
    exact ⟨.refl _, by simp, fun _ _ => rfl, by simp⟩
  | cons first outs ih =>
    obtain ⟨mid, hfirst, hrest⟩ := foldlM_cons_eq_ok_iff.1 h
    exact (ih hrest).cons hfirst

/-! ### The names of the files -/

/-- The file is to be an entry of this name in some directory. -/
def Output.HasName (out : Output) (name : String) : Prop :=
  Path.EntryName name ∧ ∃ dir, out.path = Path.join dir name

theorem Output.HasName.getLast? {name : String} (h : out.HasName name)
    (hloc : tree.locate out.path = .ok loc) : loc.getLast? = some name := by
  obtain ⟨hname, dir, hpath⟩ := h
  rw [hpath] at hloc
  exact FileTree.getLast?_of_locate hname hloc

theorem entryName_documentName (format : Format) (t : Topic) :
    Path.EntryName (documentName format t) := by
  have hlist : (documentName format t).toList =
      t.id.toList.map fileChar ++ '.' :: format.extension.toList := by
    simp [documentName, fileName]
  have hchar : ∀ c, fileChar c ≠ '/' := by
    intro c
    unfold fileChar
    split
    · decide
    · rename_i hc
      rintro rfl
      exact hc (by decide)
  refine ⟨?_, ?_, ?_, ?_⟩
  · rw [hlist]
    cases format <;> simp [hchar, Format.extension]
  all_goals
    intro heq
    have hlast := congrArg (fun s : String => s.toList.getLast?) heq
    rw [hlist] at hlast
    cases format <;> simp [Format.extension] at hlast

theorem entryName_table {name : String} (h : name ∈ ["NAMESPACE", "COLLATE", "aliases.tsv"]) :
    Path.EntryName name := by
  simp only [List.mem_cons, List.not_mem_nil, or_false] at h
  rcases h with rfl | rfl | rfl <;> exact ⟨by decide, by decide, by decide, by decide⟩

/-- The files beside the documents with their names. -/
theorem hasName_of_mem_tables {m : Manual} {dir : String} (h : out ∈ tables m dir) :
    ∃ name ∈ ["NAMESPACE", "COLLATE", "aliases.tsv"], out.HasName name ∧
      (name = "aliases.tsv" → out.text = m.index.toTable) := by
  simp only [tables, List.mem_cons, List.not_mem_nil, or_false] at h
  rcases h with rfl | rfl | rfl
  · exact ⟨"NAMESPACE", by simp, ⟨entryName_table (by simp), dir, rfl⟩, fun h => absurd h (by decide)⟩
  · exact ⟨"COLLATE", by simp, ⟨entryName_table (by simp), dir, rfl⟩, fun h => absurd h (by decide)⟩
  · exact ⟨"aliases.tsv", by simp, ⟨entryName_table (by simp), dir, rfl⟩, fun _ => rfl⟩

theorem hasName_of_mem_documents {m : Manual} {dir : String} (h : out ∈ documents m dir .rd) :
    ∃ t ∈ m.shownTopics, out.HasName (documentName .rd t) ∧ out.text = Rd.render t := by
  obtain ⟨t, ht, rfl⟩ := List.mem_map.1 h
  exact ⟨t, ht, ⟨entryName_documentName .rd t, manDir dir, rfl⟩, rfl⟩

/-! ### The directory of the documents -/

theorem entryName_man : Path.EntryName "man" :=
  ⟨by decide, by decide, by decide, by decide⟩

theorem isDir_of_makeManDir {dir : String} (h : makeManDir tree dir = .ok made) :
    made.isDir (manDir dir) = true := by
  obtain ⟨above, hupward⟩ := Path.exists_upward_join entryName_man dir
  have hmake := mapError_eq_ok_iff.1 h
  rw [FileTree.makeDirs, manDir, hupward] at hmake
  exact FileTree.isDir_of_makeUpward hmake

theorem join_manDir (dir name : String) :
    Path.join (manDir dir) name = manDir dir ++ "/" ++ name := by
  have hlast : (manDir dir).toList.getLast? = some 'n' := by
    unfold manDir Path.join
    split
    · rfl
    · split <;> simp
  exact Path.join_eq hlast (by decide)

theorem locate_document {dir name : String} {man : Location} (hname : Path.EntryName name)
    (hman : tree.locate (manDir dir) = .ok man)
    (h : tree.locate (Path.join (manDir dir) name) = .ok loc) : loc = man ++ [name] := by
  rw [join_manDir] at h
  exact FileTree.locate_append hname hman h

theorem isRoot_of_extension (format : Format) {name : String}
    (h : Path.extension? name = some format.extension) (loc : Location) :
    FileTree.isRoot (loc ++ [name]) = false := by
  apply FileTree.isRoot_append
  · rintro rfl
    cases format <;> exact absurd h (by decide)
  · rintro rfl
    cases format <;> exact absurd h (by decide)

/-- The names of the documents of a format in the directory that a path leads to. -/
theorem mem_list_iff (format : Format) {path name : String} (hloc : tree.locate path = .ok loc)
    (hext : Path.extension? name = some format.extension) :
    name ∈ tree.list path ↔ (tree.get? (loc ++ [name])).isSome := by
  rw [FileTree.list, hloc]
  exact FileTree.mem_children_iff (isRoot_of_extension format hext loc)

/-- An identifier that the name of its document and a line of the alias table show unchanged. -/
structure Portable (id : String) : Prop where
  ne_empty : id ≠ ""
  fileName_eq : fileName id = id
  newline : '\n' ∉ id.toList
  last : id.toList.getLast? ≠ some '\r'

instance (id : String) : Decidable (Portable id) :=
  decidable_of_iff
    (id ≠ "" ∧ fileName id = id ∧ '\n' ∉ id.toList ∧ id.toList.getLast? ≠ some '\r')
    ⟨fun ⟨h₁, h₂, h₃, h₄⟩ => ⟨h₁, h₂, h₃, h₄⟩, fun ⟨h₁, h₂, h₃, h₄⟩ => ⟨h₁, h₂, h₃, h₄⟩⟩

theorem Portable.splitExtension {t : Topic} (h : Portable t.id) :
    Path.splitExtension (documentName .rd t) = some ("Rd", t.id) := by
  rw [documentName, h.fileName_eq]
  exact Path.splitExtension_append h.ne_empty (by decide)

theorem Portable.extension {t : Topic} (h : Portable t.id) :
    Path.extension? (documentName .rd t) = some "Rd" := by
  rw [Path.extension?, h.splitExtension, Option.map_some]

theorem Portable.stem {t : Topic} (h : Portable t.id) : Path.stem (documentName .rd t) = t.id := by
  rw [Path.stem, h.splitExtension]

/-- No Rd name stands in the directory of the documents once it is made. -/
def ClearOfDocuments (tree : FileTree) (dir : String) : Prop :=
  ∀ made, makeManDir tree dir = .ok made →
    ∀ name ∈ made.list (manDir dir), Path.extension? name ≠ some "Rd"

section Written

variable {m : Manual} {dir : String} {more : List Output}

theorem name_of_getLast? {man : Location} {name : String} {other : String}
    (h : (man ++ [name]).getLast? = some other) : name = other := by
  rwa [List.getLast?_concat, Option.some_inj] at h

theorem extension_of_table {name : String} (h : name ∈ ["NAMESPACE", "COLLATE", "aliases.tsv"]) :
    Path.extension? name ≠ some "Rd" := by
  simp only [List.mem_cons, List.not_mem_nil, or_false] at h
  rcases h with rfl | rfl | rfl <;> decide

/-- After documents were written into a clear directory, and tables anywhere, every Rd name in it is
that of a document. -/
theorem Written.exists_topic (h : Written (documents m dir .rd ++ more) made tree')
    (hmore : more ⊆ tables m dir) (hmake : makeManDir tree dir = .ok made)
    (hclear : ClearOfDocuments tree dir) {name : String}
    (hext : Path.extension? name = some "Rd") (hmem : name ∈ tree'.list (manDir dir)) :
    ∃ t ∈ m.shownTopics, documentName .rd t = name := by
  obtain ⟨man, hman, -⟩ := FileTree.isDir_iff.1 (isDir_of_makeManDir hmake)
  rw [mem_list_iff .rd (h.keepsDirs.locate hman) hext] at hmem
  by_contra hnone
  -- a name that no file was written to was there before
  have hold : tree'.get? (man ++ [name]) = made.get? (man ++ [name]) := by
    refine h.unchanged _ fun out hout hloc => ?_
    rcases List.mem_append.1 hout with hout | hout
    · obtain ⟨t, ht, hname, -⟩ := hasName_of_mem_documents hout
      exact hnone ⟨t, ht, (name_of_getLast? (hname.getLast? hloc)).symm⟩
    · obtain ⟨other, hother, hname, -⟩ := hasName_of_mem_tables (hmore hout)
      rw [name_of_getLast? (hname.getLast? hloc)] at hext
      exact extension_of_table hother hext
  rw [hold] at hmem
  exact hclear made hmake name ((mem_list_iff .rd hman hext).2 hmem) hext

/-- Every document is found under its path, with the tables written after it. -/
theorem Written.read_document (h : Written (documents m dir .rd ++ tables m dir) made tree')
    (hids : ∀ t ∈ m.shownTopics, Portable t.id)
    (hinj : ∀ t ∈ m.shownTopics, ∀ u ∈ m.shownTopics, t.id = u.id → t = u) {t : Topic}
    (ht : t ∈ m.shownTopics) :
    tree'.read (Path.join (manDir dir) (documentName .rd t)) = .ok (Rd.render t) := by
  have hout : ⟨Path.join (manDir dir) (documentName .rd t), Rd.render t⟩ ∈
      documents m dir .rd ++ tables m dir :=
    List.mem_append_left _ (List.mem_map.2 ⟨t, ht, rfl⟩)
  obtain ⟨loc, hloc⟩ := h.located _ hout
  refine FileTree.read_eq_ok_iff.2 ⟨loc, hloc, h.text _ hout loc hloc ?_⟩
  have hlast := FileTree.getLast?_of_locate (entryName_documentName .rd t) hloc
  intro other hother hotherLoc
  rcases List.mem_append.1 hother with hother | hother
  · obtain ⟨u, hu, hname, htext⟩ := hasName_of_mem_documents hother
    have hsame := hname.getLast? hotherLoc
    rw [hlast, Option.some_inj] at hsame
    have hid : t.id = u.id := by
      rw [← (hids t ht).stem, ← (hids u hu).stem, hsame]
    rw [htext, hinj t ht u hu hid]
  · obtain ⟨name, hmem, hname, -⟩ := hasName_of_mem_tables hother
    have hsame := hname.getLast? hotherLoc
    rw [hlast, Option.some_inj] at hsame
    exact absurd (hsame ▸ (hids t ht).extension) (extension_of_table hmem)

/-- The Rd names among the documents are then exactly those of the shown topics. -/
theorem Written.mem_list_iff (h : Written (documents m dir .rd ++ tables m dir) made tree')
    (hmake : makeManDir tree dir = .ok made) (hclear : ClearOfDocuments tree dir)
    (hids : ∀ t ∈ m.shownTopics, Portable t.id)
    (hinj : ∀ t ∈ m.shownTopics, ∀ u ∈ m.shownTopics, t.id = u.id → t = u) {name : String} :
    name ∈ tree'.list (manDir dir) ∧ Path.extension? name = some "Rd" ↔
      ∃ t ∈ m.shownTopics, documentName .rd t = name := by
  constructor
  · rintro ⟨hmem, hext⟩
    exact h.exists_topic (List.Subset.refl _) hmake hclear hext hmem
  · rintro ⟨t, ht, rfl⟩
    have hext := (hids t ht).extension
    obtain ⟨man, hman, -⟩ := FileTree.isDir_iff.1 (isDir_of_makeManDir hmake)
    have hman' := h.keepsDirs.locate hman
    obtain ⟨loc, hloc, hfile⟩ := FileTree.read_eq_ok_iff.1 (h.read_document hids hinj ht)
    obtain rfl := locate_document (entryName_documentName .rd t) hman' hloc
    exact ⟨(OutputDir.mem_list_iff .rd hman' hext).2 (by rw [hfile]; rfl), hext⟩

theorem Written.read_aliasTable (h : Written (documents m dir .rd ++ tables m dir) made tree')
    (hids : ∀ t ∈ m.shownTopics, Portable t.id) :
    tree'.read (aliasTable dir) = .ok m.index.toTable := by
  have hout : ⟨aliasTable dir, m.index.toTable⟩ ∈ documents m dir .rd ++ tables m dir :=
    List.mem_append_right _ (by simp [tables])
  obtain ⟨loc, hloc⟩ := h.located _ hout
  refine FileTree.read_eq_ok_iff.2 ⟨loc, hloc, h.text _ hout loc hloc ?_⟩
  have hlast := FileTree.getLast?_of_locate (entryName_table (by simp)) hloc
  intro other hother hotherLoc
  rcases List.mem_append.1 hother with hother | hother
  · obtain ⟨u, hu, hname, -⟩ := hasName_of_mem_documents hother
    have hsame := hname.getLast? hotherLoc
    rw [hlast, Option.some_inj] at hsame
    exact absurd (hsame ▸ (hids u hu).extension) (by decide)
  · obtain ⟨name, -, hname, htext⟩ := hasName_of_mem_tables hother
    have hsame := hname.getLast? hotherLoc
    rw [hlast, Option.some_inj] at hsame
    exact htext hsame.symm

end Written

/-! ### A whole build -/

theorem removeFile_eq_ok {path : String} (h : removeFile tree path = .ok tree') :
    ∃ loc contents, tree.locate path = .ok loc ∧ tree.get? loc = some (.file contents) ∧
      tree' = tree.erase loc := by
  obtain ⟨loc, hloc, hfile⟩ := bind_eq_ok_iff.1 (mapError_eq_ok_iff.1 h)
  split at hfile
  · rename_i contents hcontents
    cases hfile
    exact ⟨loc, contents, hloc, hcontents, rfl⟩
  · cases hfile
  · cases hfile

theorem removeFile_keepsDirs {path : String} (h : removeFile tree path = .ok tree') :
    FileTree.KeepsDirs tree tree' := by
  obtain ⟨loc, contents, -, hfile, rfl⟩ := removeFile_eq_ok h
  exact (FileTree.sameDirs_erase (by simp [hfile])).keepsDirs

/-- The stages of a build, with the trees between them. -/
theorem write_eq_ok {m : Manual} {dir : String} {format : Format} {summary : Summary}
    (h : write m dir format tree = .ok (summary, tree')) :
    ∃ made behind cleared, makeManDir tree dir = .ok made ∧
      (documents m dir format).foldlM writeOutput made = .ok behind ∧
      (stale m dir format behind).foldlM removeFile behind = .ok cleared ∧
      (tables m dir).foldlM writeOutput cleared = .ok tree' ∧
      summary = ⟨(documents m dir format ++ tables m dir).map (·.path),
        stale m dir format behind⟩ := by
  obtain ⟨made, hmake, h⟩ := bind_eq_ok_iff.1 h
  obtain ⟨behind, hdocuments, h⟩ := bind_eq_ok_iff.1 h
  obtain ⟨cleared, hstale, h⟩ := bind_eq_ok_iff.1 h
  obtain ⟨last, htables, h⟩ := bind_eq_ok_iff.1 h
  cases h
  exact ⟨made, behind, cleared, hmake, hdocuments, hstale, htables, rfl⟩

/-- A build loses none of the directories it made or found. -/
theorem keepsDirs_of_write {m : Manual} {dir : String} {format : Format} {summary : Summary}
    (h : write m dir format tree = .ok (summary, tree')) :
    ∃ made, makeManDir tree dir = .ok made ∧ FileTree.KeepsDirs made tree' := by
  obtain ⟨made, behind, cleared, hmake, hdocuments, hstale, htables, -⟩ := write_eq_ok h
  have hcleared : FileTree.KeepsDirs behind cleared :=
    foldlM_induction (fun path _ t t' ht hremove => ht.trans (removeFile_keepsDirs hremove))
      (.refl behind) hstale
  exact ⟨made, hmake, (written_of_foldlM hdocuments).keepsDirs.trans
    (hcleared.trans (written_of_foldlM htables).keepsDirs)⟩

/-- In a clear directory nothing is stale, so a build writes its files and does nothing else. -/
theorem written_of_write {m : Manual} {dir : String} {summary : Summary}
    (hclear : ClearOfDocuments tree dir) (h : write m dir .rd tree = .ok (summary, tree')) :
    ∃ made, makeManDir tree dir = .ok made ∧
      Written (documents m dir .rd ++ tables m dir) made tree' := by
  obtain ⟨made, behind, cleared, hmake, hdocuments, hstale, htables, -⟩ := write_eq_ok h
  have hbehind : Written (documents m dir .rd ++ []) made behind := by
    rw [List.append_nil]
    exact written_of_foldlM hdocuments
  have hnone : stale m dir .rd behind = [] := by
    rw [stale, List.map_eq_nil_iff, List.filter_eq_nil_iff]
    intro name hname hold
    simp only [isStale, Bool.and_eq_true, beq_iff_eq, Bool.not_eq_true'] at hold
    obtain ⟨⟨hext, hcurrent⟩, -⟩ := hold
    obtain ⟨t, ht, rfl⟩ := hbehind.exists_topic (List.nil_subset _) hmake hclear hext hname
    rw [List.contains_eq_mem, decide_eq_false_iff_not] at hcurrent
    exact hcurrent (List.mem_map.2 ⟨t, ht, rfl⟩)
  rw [hnone] at hstale
  cases hstale
  refine ⟨made, hmake, written_of_foldlM ?_⟩
  rw [List.foldlM_append]
  exact bind_eq_ok_iff.2 ⟨behind, hdocuments, htables⟩

/-! ### Empty trees -/

/-- In an empty tree only directories above the documents are made, unless the path of the output
directory steps upward. -/
theorem clearOfDocuments_empty {dir : String} (h : ".." ∉ Text.splitOn '/' dir) :
    ClearOfDocuments {} dir := by
  have hup : ".." ∉ (FileTree.startOf (manDir dir)).2 := by
    obtain ⟨ps, hps, hjoin⟩ := Path.exists_splitOn_join dir
    intro hmem
    have hpiece := FileTree.startOf_subset _ hmem
    rw [manDir, hjoin "man" entryName_man.noSlash] at hpiece
    rcases List.mem_append.1 hpiece with hpiece | hpiece
    · exact h (hps hpiece)
    · exact absurd hpiece (by decide)
  intro made hmake name hname hext
  obtain ⟨man, hman, -⟩ := FileTree.isDir_iff.1 (isDir_of_makeManDir hmake)
  obtain ⟨node, hnode⟩ := Option.isSome_iff_exists.1 ((mem_list_iff .rd hman hext).1 hname)
  obtain ⟨-, path, hpath, t, hloc⟩ :=
    FileTree.madeAlong_of_makeUpward (mapError_eq_ok_iff.1 hmake) _ (isRoot_of_extension .rd hext man)
      node hnode
  have hlength := (FileTree.prefix_of_mem_upward hup hpath hloc hman).length_le
  rw [List.length_append, List.length_singleton] at hlength
  omega

theorem load_eq_ok {dir : String} {store : Store} (h : load tree dir = .ok store)
    (hdir : tree.isDir (manDir dir) = true) :
    ∃ table, tree.read (aliasTable dir) = .ok table ∧ AliasIndex.ofTable table = .ok store.index ∧
      loadDocuments tree (manDir dir) = .ok store.documents := by
  obtain ⟨table, htable, h⟩ := bind_eq_ok_iff.1 h
  obtain ⟨index, hindex, h⟩ := bind_eq_ok_iff.1 h
  simp only [hdir, ↓reduceIte] at h
  obtain ⟨documents, hdocuments, h⟩ := bind_eq_ok_iff.1 h
  cases h
  exact ⟨table, mapError_eq_ok_iff.1 htable, hindex, hdocuments⟩

/-- Over a directory of an Rd name that was made on the way, the documents cannot be loaded. -/
theorem clearOfDocuments_of_load {m : Manual} {dir : String} {summary : Summary} {store : Store}
    (hwrite : write m dir .rd {} = .ok (summary, tree')) (hload : load tree' dir = .ok store) :
    ClearOfDocuments {} dir := by
  intro made hmake name hname hext
  obtain ⟨made', hmake', hkeeps⟩ := keepsDirs_of_write hwrite
  obtain rfl : made' = made := by
    rw [hmake'] at hmake
    exact Except.ok.inj hmake
  obtain ⟨man, hman, hdir⟩ := FileTree.isDir_iff.1 (isDir_of_makeManDir hmake)
  have hroot := isRoot_of_extension .rd hext man
  obtain ⟨node, hnode⟩ := Option.isSome_iff_exists.1 ((mem_list_iff .rd hman hext).1 hname)
  obtain ⟨rfl, path, -, t, hpath⟩ :=
    FileTree.madeAlong_of_makeUpward (mapError_eq_ok_iff.1 hmake) _ hroot node hnode
  have hname' : Path.EntryName name := by
    have hnot : ∀ other, Path.extension? other ≠ some "Rd" → name ≠ other := by
      rintro other hother rfl
      exact hother hext
    refine ⟨?_, hnot _ (by decide), hnot _ (by decide), hnot _ (by decide)⟩
    exact (FileTree.noSlash_of_locate hpath (by simp)).resolve_left (hnot _ (by decide))
  -- the directory is still there, and is read like a document
  have hmem : name ∈ tree'.list (manDir dir) :=
    (mem_list_iff .rd (hkeeps.locate hman) hext).2 (by simp [hkeeps _ hnode])
  obtain ⟨-, -, -, hdocuments⟩ := load_eq_ok hload (hkeeps.isDir (isDir_of_makeManDir hmake))
  obtain ⟨doc, hdoc⟩ := exists_mapM_iff.1 ⟨_, hdocuments⟩ name
    (List.mem_filter.2 ⟨hmem, beq_iff_eq.2 hext⟩)
  obtain ⟨text, hread, -⟩ := map_eq_ok_iff.1 hdoc
  obtain ⟨loc, hloc, hfile⟩ := FileTree.read_eq_ok_iff.1 (mapError_eq_ok_iff.1 hread)
  obtain rfl := locate_document hname' (hkeeps.locate hman) hloc
  rw [hkeeps _ hnode] at hfile
  cases hfile

end DocTopics.OutputDir
