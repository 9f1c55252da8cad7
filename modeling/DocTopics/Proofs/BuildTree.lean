import DocTopics.Proofs.PlacedFiles

/-!
# The tree behind a build

A build makes the directory of the documents, writes the documents into it, removes what an earlier
build has left there, and writes the tables beside it. The places of all these files are different,
but for documents that share their name, and nothing else in the tree is touched.

## Main definitions

- `OutputDir.HasHeader` — a text that starts like a generated document
- `OutputDir.Leftover`, `OutputDir.Removable` — generated documents that no topic has any longer
- `OutputDir.Built` — the tree behind a build, place by place

## Main statements

- `OutputDir.exists_built` — every build leaves such a tree
- `OutputDir.Built.write_again` — a second build changes nothing
-/

namespace DocTopics

theorem Chars.occurs_iff {part cs : List Char} : Chars.occurs part cs = true ↔ part <:+: cs := by
  unfold Chars.occurs
  induction cs with
  | nil =>
    rw [Chars.firstMatch, Option.isSome_iff_exists]
    simp only [Chars.past_eq_some_iff, List.infix_nil]
    constructor
    · rintro ⟨rest, hrest⟩
      exact (List.append_eq_nil_iff.1 hrest.symm).1
    · rintro rfl
      exact ⟨[], rfl⟩
  | cons c cs ih =>
    rw [List.infix_cons_iff, ← ih, Chars.firstMatch]
    have hpast : (Chars.past part (c :: cs)).isSome = true ↔ part <+: c :: cs := by
      rw [Option.isSome_iff_exists]
      simp only [Chars.past_eq_some_iff]
      exact ⟨fun ⟨rest, hrest⟩ => ⟨rest, hrest.symm⟩, fun ⟨rest, hrest⟩ => ⟨rest, hrest.symm⟩⟩
    rw [← hpast]
    cases Chars.past part (c :: cs) <;> simp

namespace OutputDir

variable {m : Manual} {dir : String} {format : Format} {summary : Summary}
variable {tree tree' made : FileTree} {man base : Location} {name : String}

/-! ### Generated documents -/

/-- The first line of the text holds the header of generated files. -/
def HasHeader (text : String) : Prop :=
  ∃ first rest, Text.lines text = first :: rest ∧ generatedHeader.toList <:+: first.toList

theorem isGenerated_iff {text : String} : isGenerated text = true ↔ HasHeader text := by
  unfold isGenerated HasHeader
  cases Text.lines text with
  | nil => simp
  | cons first rest =>
    show Chars.occurs generatedHeader.toList first.toList = true ↔ _
    simp [Chars.occurs_iff]

/-- A generated file among the documents that has their extension, but is written for no topic. What
a file starts with shows only if it can be read as a text. -/
structure Leftover (m : Manual) (format : Format) (tree : FileTree) (man : Location)
    (name : String) : Prop where
  extension : Path.extension? name = some format.extension
  noTopic : ∀ t ∈ m.shownTopics, documentName format t ≠ name
  generated : ∃ text, tree.get? (man ++ [name]) = some (.file (.text text)) ∧ HasHeader text

/-- A leftover that a build removes: its path is one that the system takes. -/
def Removable (m : Manual) (dir : String) (format : Format) (tree : FileTree) (man : Location)
    (name : String) : Prop :=
  Leftover m format tree man name ∧
    (Path.join (manDir dir) name).utf8ByteSize ≤ FileTree.maxPathBytes

theorem isStale_iff : isStale tree (manDir dir) format.extension
      (m.shownTopics.map (documentName format)) name = true ↔
    Path.extension? name = some format.extension ∧
      (∀ t ∈ m.shownTopics, documentName format t ≠ name) ∧
      ∃ text, tree.read (Path.join (manDir dir) name) = .ok text ∧ HasHeader text := by
  unfold isStale
  rw [Bool.and_eq_true, Bool.and_eq_true, beq_iff_eq, Bool.not_eq_true', and_assoc]
  refine and_congr_right fun _ => and_congr ?_ ?_
  · simp
  · cases tree.read (Path.join (manDir dir) name) with
    | error fault => simp
    | ok text => simp [isGenerated_iff]

theorem read_document_iff {text : String} (hname : FileTree.NodeName name)
    (hman : tree.locate (manDir dir) = .ok man) (hdir : tree.get? man = some .dir) :
    tree.read (Path.join (manDir dir) name) = .ok text ↔
      tree.get? (man ++ [name]) = some (.file (.text text)) ∧
        (Path.join (manDir dir) name).utf8ByteSize ≤ FileTree.maxPathBytes := by
  rw [FileTree.read_eq_ok_iff, join_manDir]
  simp only [FileTree.locate_append_iff hname hman hdir]
  constructor
  · rintro ⟨_, ⟨rfl, hsize⟩, hfile⟩
    exact ⟨hfile, hsize⟩
  · rintro ⟨hfile, hsize⟩
    exact ⟨_, ⟨rfl, hsize⟩, hfile⟩

/-- The names of the files that a build removes. -/
def staleNames (m : Manual) (dir : String) (format : Format) (tree : FileTree) : List String :=
  (tree.list (manDir dir)).filter
    (isStale tree (manDir dir) format.extension (m.shownTopics.map (documentName format)))

theorem nodeName_of_leftover (hwell : tree.WellNamed) (h : Leftover m format tree man name) :
    FileTree.NodeName name := by
  obtain ⟨text, hfile, -⟩ := h.generated
  exact hwell.nodeName (isRoot_of_extension format h.extension man) (by simp [hfile])

theorem mem_staleNames_iff (hwell : tree.WellNamed) (hman : tree.locate (manDir dir) = .ok man)
    (hdir : tree.get? man = some .dir) :
    name ∈ staleNames m dir format tree ↔ Removable m dir format tree man name := by
  rw [staleNames, List.mem_filter, isStale_iff]
  constructor
  · rintro ⟨hlist, hext, hnone, text, hread, hheader⟩
    rw [mem_list_iff format hman hext] at hlist
    have hname : FileTree.NodeName name :=
      hwell.nodeName (isRoot_of_extension format hext man) (Option.isSome_iff_ne_none.1 hlist)
    obtain ⟨hfile, hsize⟩ := (read_document_iff hname hman hdir).1 hread
    exact ⟨⟨hext, hnone, text, hfile, hheader⟩, hsize⟩
  · rintro ⟨h, hsize⟩
    obtain ⟨text, hfile, hheader⟩ := h.generated
    refine ⟨?_, h.extension, h.noTopic, text, ?_, hheader⟩
    · rw [mem_list_iff format hman h.extension, hfile]
      rfl
    · exact (read_document_iff (nodeName_of_leftover hwell h) hman hdir).2 ⟨hfile, hsize⟩

/-! ### The files of a build -/

/-- The tables of a manual with their names. -/
def tableTexts (m : Manual) : List (String × String) :=
  [("NAMESPACE", exportFile m.exports), ("COLLATE", Text.joinLines m.collation ++ "\n"),
    ("aliases.tsv", m.index.toTable)]

theorem name_of_mem_tableTexts {x : String × String} (h : x ∈ tableTexts m) :
    x.1 ∈ ["NAMESPACE", "COLLATE", "aliases.tsv"] :=
  List.mem_map_of_mem h

/-- The document of a topic with its place. -/
def documentFile (dir : String) (format : Format) (base : Location) (t : Topic) : Placed where
  path := Path.join (manDir dir) (documentName format t)
  text := format.render t
  place := base ++ ["man"] ++ [documentName format t]

def documentFiles (m : Manual) (dir : String) (format : Format) (base : Location) : List Placed :=
  m.shownTopics.map (documentFile dir format base)

theorem mem_documentFiles {t : Topic} (h : t ∈ m.shownTopics) :
    documentFile dir format base t ∈ documentFiles m dir format base :=
  List.mem_map_of_mem h

/-- A table with its place. -/
def tableFile (dir : String) (base : Location) (x : String × String) : Placed where
  path := Path.join dir x.1
  text := x.2
  place := base ++ [x.1]

def tableFiles (m : Manual) (dir : String) (base : Location) : List Placed :=
  (tableTexts m).map (tableFile dir base)

/-- The documents stand one level below the tables. -/
theorem tablePlace_ne (f : Placed) (hf : f ∈ tableFiles m dir base) :
    f.place ≠ base ++ ["man"] ++ [name] := by
  obtain ⟨x, -, rfl⟩ := List.mem_map.1 hf
  intro heq
  have hlength := congrArg List.length heq
  simp [tableFile] at hlength

theorem documentPlace_ne (h : ∀ t ∈ m.shownTopics, documentName format t ≠ name) :
    ∀ f ∈ documentFiles m dir format base, f.place ≠ base ++ ["man"] ++ [name] := by
  intro f hf heq
  obtain ⟨t, ht, rfl⟩ := List.mem_map.1 hf
  exact h t ht (by simpa [documentFile] using heq)

/-- No file of the build stands at the name of another document. -/
theorem place_ne (h : ∀ t ∈ m.shownTopics, documentName format t ≠ name) :
    ∀ f ∈ documentFiles m dir format base ++ tableFiles m dir base,
      f.place ≠ base ++ ["man"] ++ [name] := by
  intro f hf
  rcases List.mem_append.1 hf with hf | hf
  · exact documentPlace_ne h f hf
  · exact tablePlace_ne f hf

theorem nodup_tablePlaces : ((tableFiles m dir base).map (·.place)).Nodup := by
  simp [tableFiles, tableFile, tableTexts]

theorem outputs_eq (m : Manual) (dir : String) (format : Format) (base : Location) :
    documents m dir format = (documentFiles m dir format base).map (·.toOutput) ∧
      tables m dir = (tableFiles m dir base).map (·.toOutput) := by
  constructor
  · simp [documents, documentFiles, documentFile]
  · rfl

theorem foldlM_documents_iff (hsite : Site tree dir base) :
    (documents m dir format).foldlM writeOutput tree = .ok tree' ↔
      (∀ f ∈ documentFiles m dir format base, f.Ready tree) ∧
        tree' = putAll tree (documentFiles m dir format base) := by
  rw [(outputs_eq m dir format base).1]
  refine foldlM_writeOutput_eq_ok_iff fun f hf loc hloc => ?_
  obtain ⟨t, -, rfl⟩ := List.mem_map.1 hf
  exact locate_document (entryName_documentName format t) hsite.locate_man hloc

theorem foldlM_tables_iff (hsite : Site tree dir base) :
    (tables m dir).foldlM writeOutput tree = .ok tree' ↔
      (∀ f ∈ tableFiles m dir base, f.Ready tree) ∧
        tree' = putAll tree (tableFiles m dir base) := by
  rw [(outputs_eq m dir .rd base).2]
  refine foldlM_writeOutput_eq_ok_iff fun f hf loc hloc => ?_
  obtain ⟨x, hx, rfl⟩ := List.mem_map.1 hf
  exact hsite.beside x.1 loc (entryName_table (name_of_mem_tableTexts hx)) hloc

/-! ### The whole build -/

theorem Leftover.imp (h : Leftover m format tree man name)
    (hfile : ∀ contents, tree.get? (man ++ [name]) = some (.file contents) →
      tree'.get? (man ++ [name]) = some (.file contents)) : Leftover m format tree' man name := by
  obtain ⟨text, htext, hheader⟩ := h.generated
  exact ⟨h.extension, h.noTopic, text, hfile (.text text) htext, hheader⟩

/-- The documents of this build are no leftovers of another, so writing them does not change which
files those are. -/
theorem removable_putAll_iff (hready : ∀ f ∈ documentFiles m dir format base, f.Ready made) :
    Removable m dir format (putAll made (documentFiles m dir format base)) (base ++ ["man"]) name ↔
      Removable m dir format made (base ++ ["man"]) name := by
  refine and_congr_left fun _ => ⟨fun hleft => ?_, fun hleft => ?_⟩
  · have hsame := get?_putAll_of_ne hready (documentPlace_ne hleft.noTopic)
    exact hleft.imp fun text htext => hsame ▸ htext
  · have hsame := get?_putAll_of_ne hready (documentPlace_ne hleft.noTopic)
    exact hleft.imp fun text htext => hsame.trans htext

/-- The tree behind a build, place by place, from the tree in which the directory of the documents
was made. -/
structure Built (m : Manual) (dir : String) (format : Format) (made tree' : FileTree)
    (base : Location) : Prop where
  site : Site made dir base
  ready : ∀ f ∈ documentFiles m dir format base ++ tableFiles m dir base, f.Ready made
  sameDirs : FileTree.SameDirs made tree'
  wellNamed : tree'.WellNamed
  get?_document : ∀ front f back, documentFiles m dir format base = front ++ f :: back →
    (∀ g ∈ back, g.place ≠ f.place) → tree'.get? f.place = some (.file (.text f.text))
  get?_table : ∀ f ∈ tableFiles m dir base, tree'.get? f.place = some (.file (.text f.text))
  get?_gone : ∀ name, Removable m dir format made (base ++ ["man"]) name →
    tree'.get? (base ++ ["man"] ++ [name]) = none
  get?_other : ∀ loc, (∀ f ∈ documentFiles m dir format base ++ tableFiles m dir base,
      f.place ≠ loc) →
    (∀ name, Removable m dir format made (base ++ ["man"]) name →
      base ++ ["man"] ++ [name] ≠ loc) → tree'.get? loc = made.get? loc

theorem exists_built (hwell : tree.WellNamed)
    (h : write m dir format tree = .ok (summary, tree')) :
    ∃ made base, ∃ names : List String, makeManDir tree dir = .ok made ∧
      Built m dir format made tree' base ∧
      summary = ⟨(documents m dir format ++ tables m dir).map (·.path),
        names.map (Path.join (manDir dir))⟩ ∧ names.Nodup ∧
      ∀ name, name ∈ names ↔ Removable m dir format made (base ++ ["man"]) name := by
  obtain ⟨made, behind, cleared, hmake, hdocuments, hstale, htables, rfl⟩ := write_eq_ok h
  obtain ⟨base, hsite⟩ := exists_site (isDir_of_makeManDir hmake)
  obtain ⟨hdocs, rfl⟩ := (foldlM_documents_iff hsite).1 hdocuments
  have hwellMade := wellNamed_makeManDir hwell hmake
  have hsameDocs := sameDirs_putAll hdocs
  have hwellDocs := wellNamed_putAll hdocs hwellMade
  have hsiteDocs := hsite.of_sameDirs hsameDocs
  have hmem : ∀ name, name ∈ staleNames m dir format (putAll made (documentFiles m dir format base)) ↔
      Removable m dir format made (base ++ ["man"]) name := by
    intro name
    rw [← removable_putAll_iff hdocs]
    exact mem_staleNames_iff hwellDocs hsiteDocs.locate_man hsiteDocs.isDir_man
  have hentry : ∀ name ∈ staleNames m dir format (putAll made (documentFiles m dir format base)),
      Path.EntryName name :=
    fun name hname => (nodeName_of_leftover hwellMade ((hmem name).1 hname).1).toEntryName
  obtain ⟨hnodup, hsameCleared, hgone, hother⟩ :=
    foldlM_removeFile hsiteDocs.locate_man hentry hstale
  have hsame := hsameDocs.trans hsameCleared
  obtain ⟨htabs, rfl⟩ := (foldlM_tables_iff (hsite.of_sameDirs hsame)).1 htables
  refine ⟨made, base, _, hmake, ⟨hsite, ?_, hsame.trans (sameDirs_putAll htabs), ?_, ?_, ?_, ?_, ?_⟩,
    rfl, hnodup, hmem⟩
  · intro f hf
    rcases List.mem_append.1 hf with hf | hf
    · exact hdocs f hf
    · exact (htabs f hf).of_sameDirs hsame.symm
  · exact wellNamed_putAll htabs (wellNamed_foldlM_removeFile hwellDocs hstale)
  · intro front f back hfiles hlast
    have hf : f ∈ documentFiles m dir format base := by simp [hfiles]
    have hbelow : ∀ g ∈ tableFiles m dir base, g.place ≠ f.place := by
      obtain ⟨t, -, rfl⟩ := List.mem_map.1 hf
      exact tablePlace_ne
    rw [get?_putAll_of_ne htabs hbelow, hother f.place, get?_putAll_of_last hdocs hfiles hlast]
    exact fun name hname => documentPlace_ne ((hmem name).1 hname).1.noTopic f hf
  · exact fun f hf => get?_putAll_of_mem htabs nodup_tablePlaces hf
  · intro name hname
    rw [get?_putAll_of_ne htabs tablePlace_ne]
    exact (hgone name ((hmem name).2 hname)).2
  · intro loc hfiles hremoved
    have hdocsNe := fun f hf => hfiles f (List.mem_append_left _ hf)
    have htabsNe := fun f hf => hfiles f (List.mem_append_right _ hf)
    rw [get?_putAll_of_ne htabs htabsNe, hother, get?_putAll_of_ne hdocs hdocsNe]
    exact fun name hname => (hremoved name ((hmem name).1 hname)).symm

/-- Where every file can be written and nothing is to be removed, a build succeeds. -/
theorem write_of_ready (hmake : makeManDir tree dir = .ok made) (hwell : made.WellNamed)
    (hsite : Site made dir base)
    (hready : ∀ f ∈ documentFiles m dir format base ++ tableFiles m dir base, f.Ready made)
    (hnone : ∀ name, ¬Removable m dir format made (base ++ ["man"]) name) :
    write m dir format tree = .ok (⟨(documents m dir format ++ tables m dir).map (·.path), []⟩,
      putAll (putAll made (documentFiles m dir format base)) (tableFiles m dir base)) := by
  have hdocs : ∀ f ∈ documentFiles m dir format base, f.Ready made :=
    fun f hf => hready f (List.mem_append_left _ hf)
  have hsame := sameDirs_putAll hdocs
  have hsiteDocs := hsite.of_sameDirs hsame
  have htabs : ∀ f ∈ tableFiles m dir base,
      f.Ready (putAll made (documentFiles m dir format base)) :=
    fun f hf => (hready f (List.mem_append_right _ hf)).of_sameDirs hsame
  have hstale : stale m dir format (putAll made (documentFiles m dir format base)) = [] := by
    refine List.map_eq_nil_iff.2 (List.eq_nil_iff_forall_not_mem.2 fun name hname => hnone name ?_)
    rw [← removable_putAll_iff hdocs]
    exact (mem_staleNames_iff (wellNamed_putAll hdocs hwell) hsiteDocs.locate_man
      hsiteDocs.isDir_man).1 hname
  refine bind_eq_ok_iff.2 ⟨made, hmake, bind_eq_ok_iff.2
    ⟨_, (foldlM_documents_iff hsite).2 ⟨hdocs, rfl⟩, ?_⟩⟩
  simp only [hstale]
  exact bind_eq_ok_iff.2 ⟨_, rfl, bind_eq_ok_iff.2
    ⟨_, (foldlM_tables_iff hsiteDocs).2 ⟨htabs, rfl⟩, rfl⟩⟩

theorem Built.not_removable (h : Built m dir format made tree' base) :
    ¬Removable m dir format tree' (base ++ ["man"]) name := by
  rintro ⟨hleft, hsize⟩
  obtain ⟨text, htext, -⟩ := hleft.generated
  by_cases hold : Removable m dir format made (base ++ ["man"]) name
  · rw [h.get?_gone name hold] at htext
    cases htext
  · refine hold ⟨hleft.imp fun text htext => ?_, hsize⟩
    rwa [h.get?_other _ (place_ne hleft.noTopic) fun other hother heq => hold ?_] at htext
    obtain rfl : other = name := by simpa using heq
    exact hother

theorem Built.write_again (h : Built m dir format made tree' base) :
    write m dir format tree' =
      .ok (⟨(documents m dir format ++ tables m dir).map (·.path), []⟩, tree') := by
  have hsite := h.site.of_sameDirs h.sameDirs
  have hready : ∀ f ∈ documentFiles m dir format base ++ tableFiles m dir base, f.Ready tree' :=
    fun f hf => (h.ready f hf).of_sameDirs h.sameDirs
  have hdocs : putAll tree' (documentFiles m dir format base) = tree' :=
    putAll_eq_self (fun f hf => hready f (List.mem_append_left _ hf)) h.get?_document
  have htabs : putAll tree' (tableFiles m dir base) = tree' := by
    refine putAll_eq_self (fun f hf => hready f (List.mem_append_right _ hf)) ?_
    intro front f back hfiles _
    exact h.get?_table f (by simp [hfiles])
  rw [write_of_ready hsite.makeManDir_eq h.wellNamed hsite hready fun name => h.not_removable, hdocs,
    htabs]

theorem removable_makeManDir_iff (h : makeManDir tree dir = .ok made) :
    Removable m dir format made man name ↔ Removable m dir format tree man name := by
  refine and_congr_left fun _ => ⟨fun hleft => ?_, fun hleft => ?_⟩
  · exact hleft.imp fun text htext => (file_makeManDir_iff h).1 htext
  · exact hleft.imp fun text htext => (file_makeManDir_iff h).2 htext

theorem locate_removable (hwell : tree.WellNamed) (hman : tree'.locate (manDir dir) = .ok man)
    (hdir : tree'.get? man = some .dir) (h : Removable m dir format tree man name) :
    tree'.locate (Path.join (manDir dir) name) = .ok (man ++ [name]) := by
  rw [join_manDir]
  refine (FileTree.locate_append_iff (nodeName_of_leftover hwell h.1) hman hdir).2 ⟨rfl, ?_⟩
  rw [← join_manDir]
  exact h.2

theorem join_manDir_injective : Function.Injective (Path.join (manDir dir)) := by
  intro a b hab
  simp only [join_manDir] at hab
  simpa using hab

theorem Built.read (h : Built m dir format made tree' base) {f : Placed}
    (hf : f ∈ documentFiles m dir format base ++ tableFiles m dir base)
    (hget : tree'.get? f.place = some (.file (.text f.text))) : tree'.read f.path = .ok f.text :=
  FileTree.read_eq_ok_iff.2 ⟨f.place, ((h.ready f hf).of_sameDirs h.sameDirs).1, hget⟩

theorem Built.read_document (h : Built m dir format made tree' base) {front back : List Topic}
    {t : Topic} (hshown : m.shownTopics = front ++ t :: back)
    (hlast : ∀ u ∈ back, documentName format u ≠ documentName format t) :
    tree'.read (Path.join (manDir dir) (documentName format t)) = .ok (format.render t) := by
  have hfiles : documentFiles m dir format base = front.map (documentFile dir format base) ++
      documentFile dir format base t :: back.map (documentFile dir format base) := by
    rw [documentFiles, hshown, List.map_append, List.map_cons]
  have hmem : documentFile dir format base t ∈ documentFiles m dir format base := by simp [hfiles]
  show tree'.read (documentFile dir format base t).path = .ok (documentFile dir format base t).text
  refine h.read (List.mem_append_left _ hmem) (h.get?_document _ _ _ hfiles fun g hg heq => ?_)
  obtain ⟨u, hu, rfl⟩ := List.mem_map.1 hg
  exact hlast u hu (by simpa [documentFile] using heq)

theorem Built.read_table (h : Built m dir format made tree' base) {x : String × String}
    (hx : x ∈ tableTexts m) : tree'.read (Path.join dir x.1) = .ok x.2 := by
  have hmem : tableFile dir base x ∈ tableFiles m dir base := List.mem_map_of_mem hx
  show tree'.read (tableFile dir base x).path = .ok (tableFile dir base x).text
  exact h.read (List.mem_append_right _ hmem) (h.get?_table _ hmem)

theorem Built.exists_text (h : Built m dir format made tree' base)
    (hname : ∃ t ∈ m.shownTopics, documentName format t = name) :
    ∃ t ∈ m.shownTopics, documentName format t = name ∧
      tree'.get? (base ++ ["man"] ++ [name]) = some (.file (.text (format.render t))) := by
  obtain ⟨t, ht, rfl⟩ := hname
  obtain ⟨front, f, back, hfiles, hplace, hlast⟩ :=
    exists_last (p := fun f => f.place = (documentFile dir format base t).place)
      ⟨_, mem_documentFiles ht, rfl⟩
  have hf : f ∈ documentFiles m dir format base := by simp [hfiles]
  have hget := h.get?_document front f back hfiles fun g hg heq => hlast g hg (heq.trans hplace)
  obtain ⟨u, hu, rfl⟩ := List.mem_map.1 hf
  refine ⟨u, hu, by simpa [documentFile] using hplace, ?_⟩
  rw [hplace] at hget
  exact hget

/-- What a build leaves in a tree whose nodes have names that the system takes. The last topic of each
name has its document, leftovers are gone unless their path is too long, every other file is as
before, whether it can be read or not, and a second build changes nothing. -/
theorem tree_of_write (hwell : tree.WellNamed)
    (h : write m dir format tree = .ok (summary, tree')) :
    ∃ made man, makeManDir tree dir = .ok made ∧ tree'.locate (manDir dir) = .ok man ∧
      -- the documents, the last of each name, and the tables
      (∀ front t back, m.shownTopics = front ++ t :: back →
        (∀ u ∈ back, documentName format u ≠ documentName format t) →
        tree'.read (Path.join (manDir dir) (documentName format t)) = .ok (format.render t)) ∧
      tree'.read (Path.join dir "NAMESPACE") = .ok (exportFile m.exports) ∧
      tree'.read (Path.join dir "COLLATE") = .ok (Text.joinLines m.collation ++ "\n") ∧
      tree'.read (Path.join dir "aliases.tsv") = .ok m.index.toTable ∧
      -- what is reported, and what is gone
      summary.written = (documents m dir format ++ tables m dir).map (·.path) ∧
      summary.removed.Nodup ∧
      (∀ path, path ∈ summary.removed ↔
        ∃ name, path = Path.join (manDir dir) name ∧ Removable m dir format tree man name) ∧
      (∀ name, Removable m dir format tree man name → tree'.get? (man ++ [name]) = none) ∧
      -- what stays
      AddsDirs tree made ∧ FileTree.SameDirs made tree' ∧
      (∀ loc, (∀ path ∈ summary.written ++ summary.removed, tree'.locate path ≠ .ok loc) →
        ∀ contents,
          tree'.get? loc = some (.file contents) ↔ tree.get? loc = some (.file contents)) ∧
      write m dir format tree' = .ok (⟨summary.written, []⟩, tree') := by
  obtain ⟨made, base, names, hmake, hbuilt, rfl, hnodup, hmem⟩ := exists_built hwell h
  have hsite := hbuilt.site.of_sameDirs hbuilt.sameDirs
  have hmem' : ∀ name, name ∈ names ↔ Removable m dir format tree (base ++ ["man"]) name :=
    fun name => (hmem name).trans (removable_makeManDir_iff hmake)
  have hfiles : (documents m dir format ++ tables m dir) =
      (documentFiles m dir format base ++ tableFiles m dir base).map (·.toOutput) := by
    rw [List.map_append, ← (outputs_eq m dir format base).1, ← (outputs_eq m dir format base).2]
  have htables : ∀ x ∈ tableTexts m, tree'.read (Path.join dir x.1) = .ok x.2 :=
    fun x hx => hbuilt.read_table hx
  simp only [tableTexts, List.forall_mem_cons] at htables
  obtain ⟨hexports, hcollation, haliases, -⟩ := htables
  refine ⟨made, base ++ ["man"], hmake, hsite.locate_man, fun front t back => hbuilt.read_document,
    hexports, hcollation, haliases, rfl, hnodup.map join_manDir_injective, ?_, ?_,
    addsDirs_makeManDir hmake, hbuilt.sameDirs, ?_, hbuilt.write_again⟩
  · intro path
    simp only [List.mem_map, hmem']
    exact ⟨fun ⟨name, h, heq⟩ => ⟨name, heq.symm, h⟩, fun ⟨name, heq, h⟩ => ⟨name, h, heq.symm⟩⟩
  · exact fun name hname => hbuilt.get?_gone name ((removable_makeManDir_iff hmake).2 hname)
  · intro loc hloc text
    rw [← file_makeManDir_iff hmake, hbuilt.get?_other loc]
    · intro f hf heq
      refine hloc f.path (List.mem_append_left _ ?_) ?_
      · rw [hfiles, List.map_map]
        exact List.mem_map_of_mem hf
      · rw [← heq]
        exact ((hbuilt.ready f hf).of_sameDirs hbuilt.sameDirs).1
    · intro name hname heq
      refine hloc _ (List.mem_append_right _ (List.mem_map_of_mem ((hmem name).2 hname))) ?_
      rw [← heq]
      exact locate_removable hwell hsite.locate_man hsite.isDir_man
        ((removable_makeManDir_iff hmake).1 hname)

/-- A function with a document. -/
def areaOnly : Inputs :=
  { units := [⟨"R/a.R", "#' Area\narea <- function(shape) 0\n"⟩] }

/-- The header of generated files in front of a byte that is no text. -/
def latinBytes : ByteArray :=
  "% Generated by topicgen: do not edit by hand\n".toUTF8.push 0xE9

theorem not_isValidUTF8_latinBytes : ¬latinBytes.IsValidUTF8 := by
  decide

/-- An output directory with a generated document, one that was written by hand, and one with the
header that cannot be read. -/
def threeDocuments : FileTree where
  nodes := [(["out"], .dir), (["out", "man"], .dir),
    (["out", "man", "old.Rd"], .file (.text "% Generated by topicgen: do not edit by hand\n")),
    (["out", "man", "notes.Rd"], .file (.text "Notes\n")),
    (["out", "man", "latin.Rd"], .file (.binary latinBytes not_isValidUTF8_latinBytes))]

theorem tree_of_write_threeDocuments :
    ∃ m summary tree, generate areaOnly = .ok m ∧
      write m "out" .rd threeDocuments = .ok (summary, tree) ∧
      summary.removed = ["out/man/old.Rd"] ∧
      tree.get? ["out", "man", "notes.Rd"] = threeDocuments.get? ["out", "man", "notes.Rd"] ∧
      tree.get? ["out", "man", "latin.Rd"] = threeDocuments.get? ["out", "man", "latin.Rd"] ∧
      (∃ t, m.shownTopics = [t] ∧ tree.read "out/man/area.Rd" = .ok (Format.rd.render t)) ∧
      write m "out" .rd tree = .ok (⟨summary.written, []⟩, tree) := by
  have heval : (generate areaOnly).toOption.map (fun m =>
      (m.shownTopics.map (documentName .rd),
        (write m "out" .rd threeDocuments).toOption.map fun result =>
        (result.1.removed, ["notes.Rd", "latin.Rd"].all fun name =>
          result.2.get? ["out", "man", name] == threeDocuments.get? ["out", "man", name]))) =
      some (["area.Rd"], some (["out/man/old.Rd"], true)) := by decide +kernel
  obtain ⟨m, hgen, hresult⟩ := toOption_map_eq_some_iff.1 heval
  rw [Prod.mk.injEq] at hresult
  obtain ⟨hnames, hwrite⟩ := hresult
  obtain ⟨⟨summary, tree⟩, hwrite, hsummary⟩ := toOption_map_eq_some_iff.1 hwrite
  simp only [Prod.mk.injEq, List.all_cons, List.all_nil, Bool.and_true, Bool.and_eq_true,
    beq_iff_eq] at hsummary
  obtain ⟨hremoved, hnotes, hlatin⟩ := hsummary
  obtain ⟨made, man, -, -, hdocument, -, -, -, -, -, -, -, -, -, -, hagain⟩ :=
    tree_of_write (by decide) hwrite
  obtain ⟨t, hshown, hname⟩ := List.map_eq_singleton_iff.1 hnames
  refine ⟨m, summary, tree, hgen, hwrite, hremoved, hnotes, hlatin, ⟨t, hshown, ?_⟩, hagain⟩
  have hread := hdocument [] t [] hshown (by simp)
  rwa [hname] at hread

/-- A path that stays where it is, again and again. -/
def dotted : Nat → String
  | 0 => "out"
  | n + 1 => dotted n ++ "/" ++ "."

theorem utf8ByteSize_dotted (n : Nat) : (dotted n).utf8ByteSize = 3 + 2 * n := by
  induction n with
  | zero => rfl
  | succ n ih =>
    have hslash : ("/" : String).utf8ByteSize = 1 := rfl
    have hdot : ("." : String).utf8ByteSize = 1 := rfl
    rw [dotted, String.utf8ByteSize_append, String.utf8ByteSize_append, ih]
    omega

theorem join_dotted (n : Nat) (name : String) :
    Path.join (dotted n) name = dotted n ++ "/" ++ name := by
  cases n with
  | zero => exact Path.join_eq (c := 't') (by decide) (by decide)
  | succ n => exact Path.join_eq (c := '.') (by simp [dotted]) (by decide)

theorem locate_dotted {n : Nat} (hdir : tree.get? ["out"] = some .dir)
    (hn : 3 + 2 * n ≤ FileTree.maxPathBytes) : tree.locate (dotted n) = .ok ["out"] := by
  induction n with
  | zero =>
    refine FileTree.locate_eq_ok_iff.2 ⟨⟨by decide, by decide, by decide⟩, ?_⟩
    exact FileTree.walk_cons_eq_ok_iff.2 ⟨rfl, by decide, rfl⟩
  | succ n ih =>
    refine FileTree.locate_here (ih (by omega)) hdir ?_
    rw [← dotted, utf8ByteSize_dotted]
    exact hn

def longName : String :=
  String.ofList (List.replicate 97 'x') ++ ".Rd"

/-- An output directory with a generated document of a long name. -/
def longLeftover : FileTree where
  nodes := [(["out"], .dir), (["out", "man"], .dir),
    (["out", "man", longName], .file (.text "% Generated by topicgen: do not edit by hand\n"))]

theorem eq_longName_of_get? {text : String}
    (h : longLeftover.get? ["out", "man", name] = some (.file (.text text))) : name = longName := by
  by_contra hne
  simp [longLeftover, FileTree.get?, FileTree.isRoot, FileTree.isAbove, Ne.symm hne] at h

section LongLeftover

variable {n : Nat}

theorem locate_longLeftover (hn : n ≤ 2000) (hname : FileTree.NodeName name)
    (hsize : name.utf8ByteSize ≤ 20) :
    longLeftover.locate (Path.join (dotted n) name) = .ok ["out", name] := by
  have hout : longLeftover.locate (dotted n) = .ok ["out"] := by
    refine locate_dotted rfl ?_
    rw [FileTree.maxPathBytes]
    omega
  rw [join_dotted]
  refine (FileTree.locate_append_iff hname hout rfl).2 ⟨rfl, ?_⟩
  have hslash : ("/" : String).utf8ByteSize = 1 := rfl
  rw [String.utf8ByteSize_append, String.utf8ByteSize_append, utf8ByteSize_dotted,
    FileTree.maxPathBytes]
  omega

theorem site_longLeftover (hn : n ≤ 2000) : Site longLeftover (dotted n) ["out"] := by
  have hman : longLeftover.locate (manDir (dotted n)) = .ok ["out", "man"] :=
    locate_longLeftover hn (by decide) (by decide)
  obtain ⟨base, hsite⟩ := exists_site (FileTree.isDir_iff.2 ⟨_, hman, rfl⟩)
  have hbase := hsite.locate_man
  rw [hman, Except.ok.injEq] at hbase
  obtain rfl : base = ["out"] := List.append_inj_left' hbase.symm rfl
  exact hsite

theorem ready_longLeftover (hn : n ≤ 2000) :
    ∀ f ∈ tableFiles m (dotted n) ["out"], f.Ready longLeftover := by
  have hnames : ∀ name ∈ ["NAMESPACE", "COLLATE", "aliases.tsv"], FileTree.NodeName name ∧
      name.utf8ByteSize ≤ 20 ∧ longLeftover.get? ["out", name] ≠ some .dir := by
    decide
  intro f hf
  obtain ⟨x, hx, rfl⟩ := List.mem_map.1 hf
  obtain ⟨hname, hsize, hfree⟩ := hnames x.1 (name_of_mem_tableTexts hx)
  exact ⟨locate_longLeftover hn hname hsize, hfree⟩

/-- The leftover has a path of more than 4095 bytes. -/
theorem not_removable_longLeftover (hn : 1996 ≤ n) :
    ¬Removable m (dotted n) .rd longLeftover ["out", "man"] name := by
  rintro ⟨hleft, hsize⟩
  obtain ⟨text, htext, -⟩ := hleft.generated
  obtain rfl := eq_longName_of_get? htext
  have hlong : longName.utf8ByteSize = 100 := by decide
  have hman : ("man" : String).utf8ByteSize = 3 := rfl
  have hslash : ("/" : String).utf8ByteSize = 1 := rfl
  rw [join_manDir, manDir, join_dotted, String.utf8ByteSize_append, String.utf8ByteSize_append,
    String.utf8ByteSize_append, String.utf8ByteSize_append, utf8ByteSize_dotted,
    hlong, FileTree.maxPathBytes] at hsize
  omega

end LongLeftover

/-- A leftover stays where its path is longer than the system takes: it cannot be read, and so it is
not known to be generated. -/
theorem exists_leftover_kept :
    ∃ m dir summary tree, generate { units := [] } = .ok m ∧ longLeftover.WellNamed ∧
      write m dir .rd longLeftover = .ok (summary, tree) ∧
      tree.locate (manDir dir) = .ok ["out", "man"] ∧
      Leftover m .rd longLeftover ["out", "man"] longName ∧ summary.removed = [] ∧
      tree.get? ["out", "man", longName] = longLeftover.get? ["out", "man", longName] := by
  have heval : (generate { units := [] }).toOption.map (·.shownTopics.length) = some 0 := by
    decide +kernel
  obtain ⟨m, hgen, hlength⟩ := toOption_map_eq_some_iff.1 heval
  have hshown : m.shownTopics = [] := List.length_eq_zero_iff.1 hlength
  have hwell : longLeftover.WellNamed := by decide +kernel
  obtain ⟨n, hn⟩ : ∃ n, n = 1996 := ⟨_, rfl⟩
  have hdocs : documentFiles m (dotted n) .rd ["out"] = [] := by simp [documentFiles, hshown]
  have hready : ∀ f ∈ tableFiles m (dotted n) ["out"], f.Ready longLeftover :=
    ready_longLeftover (by omega)
  have hsite : Site longLeftover (dotted n) ["out"] := site_longLeftover (by omega)
  have hwrite := write_of_ready hsite.makeManDir_eq hwell hsite (by rwa [hdocs])
    fun name => not_removable_longLeftover (by omega)
  rw [hdocs] at hwrite
  refine ⟨m, dotted n, _, _, hgen, hwell, hwrite,
    (hsite.of_sameDirs (sameDirs_putAll hready)).locate_man, ?_, rfl,
    get?_putAll_of_ne hready tablePlace_ne⟩
  refine ⟨by decide +kernel, by simp [hshown],
    "% Generated by topicgen: do not edit by hand\n", by decide +kernel, ?_⟩
  exact isGenerated_iff.1 (by decide +kernel)

end OutputDir

end DocTopics
