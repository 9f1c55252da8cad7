import DocTopics.Proofs.Generation
import DocTopics.Proofs.Rebuild
import Mathlib.Data.List.Dedup

/-!
# One document per topic

The name of a document is made from the identifier of its topic, with one character for all those
that a file name may not hold. Topics whose identifiers differ in such characters only share a
document, and the last one is kept.
-/

namespace DocTopics

namespace FileTree

variable {tree tree' : FileTree} {loc : Location}

theorem WellNamed.nodeName_of_mem_children {name : String} (h : WellNamed tree)
    (hname : name ∈ tree.children loc) : NodeName name := by
  rw [children, sortStrings, mem_sortBy, List.mem_filterMap] at hname
  obtain ⟨x, hx, hchild⟩ := hname
  exact h x hx name (by rw [childName_eq_some_iff.1 hchild, List.getLast?_concat])

end FileTree

namespace OutputDir

variable {m : Manual} {dir : String} {format : Format} {summary : Summary}
variable {tree tree' made : FileTree} {base : Location} {name : String}

theorem distinct_of_write (hdistinct : tree.Distinct)
    (h : write m dir format tree = .ok (summary, tree')) : tree'.Distinct := by
  obtain ⟨made, behind, cleared, hmake, hdocuments, hstale, htables, -⟩ := write_eq_ok h
  have hwrite : ∀ {outs : List Output} {t t' : FileTree}, t.Distinct →
      outs.foldlM writeOutput t = .ok t' → t'.Distinct := by
    intro outs t t' ht
    refine foldlM_induction (fun out _ s s' hs hout => ?_) ht
    obtain ⟨loc, -, -, rfl⟩ := writeOutput_eq_ok_iff.1 hout
    exact hs.put _
  have hmade : made.Distinct := by
    refine FileTree.makeUpward_induction (fun path _ t t' ht hdir => ?_) hdistinct
      (mapError_eq_ok_iff.1 hmake)
    obtain ⟨loc, -, -, rfl⟩ := FileTree.makeDir_eq_ok_iff.1 hdir
    exact ht.put _
  have hcleared : cleared.Distinct := by
    refine foldlM_induction (fun path _ t t' ht hremove => ?_) (hwrite hmade hdocuments) hstale
    obtain ⟨loc, text, -, -, rfl⟩ := removeFile_eq_ok hremove
    exact ht.erase
  exact hwrite hcleared htables

/-- The names of the files in the directory of the documents. -/
def documentsIn (tree : FileTree) (dir : String) : List String :=
  (tree.list (manDir dir)).filter fun name => tree.isFile (Path.join (manDir dir) name)

theorem nodup_documentsIn (h : tree.Distinct) : (documentsIn tree dir).Nodup := by
  refine List.Nodup.filter _ ?_
  unfold FileTree.list
  split
  · exact h.nodup_children
  · exact List.nodup_nil

/-- After a build from nothing, the files among the documents are those of the shown topics. -/
theorem Built.mem_documentsIn_iff (h : Built m dir format made tree base)
    (hmake : makeManDir {} dir = .ok made) :
    name ∈ documentsIn tree dir ↔ name ∈ m.shownTopics.map (documentName format) := by
  have hsite := h.site.of_sameDirs h.sameDirs
  rw [documentsIn, List.mem_filter, FileTree.list, hsite.locate_man, FileTree.isFile_iff]
  constructor
  · rintro ⟨hchild, loc, hloc, text, hfile⟩
    have hname := h.wellNamed.nodeName_of_mem_children hchild
    obtain rfl := locate_document hname.toEntryName hsite.locate_man hloc
    by_contra hnone
    have hne : ∀ t ∈ m.shownTopics, documentName format t ≠ name :=
      fun t ht heq => hnone (List.mem_map.2 ⟨t, ht, heq⟩)
    rw [h.get?_of_empty hmake (place_ne hne), file_makeManDir_iff hmake] at hfile
    exact get?_empty _ text hfile
  · intro hname
    obtain ⟨t, ht, -, hfile⟩ := h.exists_text (List.mem_map.1 hname)
    obtain ⟨u, hu, rfl⟩ := List.mem_map.1 hname
    have hready := h.ready _ (List.mem_append_left _ (mem_documentFiles hu))
    refine ⟨?_, _, (hready.of_sameDirs h.sameDirs).1, _, hfile⟩
    refine (FileTree.mem_children_iff (FileTree.isRoot_of_get? hready.2)).2 ?_
    rw [hfile]
    rfl

theorem documentName_inj {t u : Topic} :
    documentName format t = documentName format u ↔ fileName t.id = fileName u.id := by
  simp [documentName]

/-- No two topics share a document. -/
theorem nodup_documentName_iff {inputs : Inputs} (format : Format) (hm : generate inputs = .ok m) :
    (m.shownTopics.map (documentName format)).Nodup ↔
      ∀ t ∈ m.shownTopics, ∀ u ∈ m.shownTopics, fileName t.id = fileName u.id → t.id = u.id := by
  obtain ⟨merged, hgenerated⟩ := exists_generated hm
  have hshown : m.shownTopics.Nodup := (List.Nodup.of_map _ hgenerated.nodup).filter _
  rw [List.nodup_map_iff_inj_on hshown]
  constructor
  · intro hinj t ht u hu hname
    rw [hinj t ht u hu (documentName_inj.2 hname)]
  · intro hinj t ht u hu hname
    exact hgenerated.eq_of_id (List.mem_of_mem_filter ht) (List.mem_of_mem_filter hu)
      (hinj t ht u hu (documentName_inj.1 hname))

/-- A build from nothing has one file for each name of a document. -/
theorem perm_documentsIn (h : write m dir format {} = .ok (summary, tree)) :
    (documentsIn tree dir).Perm (m.shownTopics.map (documentName format)).dedup := by
  obtain ⟨made, base, -, hmake, hbuilt, -⟩ := exists_built FileTree.wellNamed_empty h
  have hempty : ({} : FileTree).Distinct := List.nodup_nil
  have hnodup : (documentsIn tree dir).Nodup := nodup_documentsIn (distinct_of_write hempty h)
  refine (List.perm_ext_iff_of_nodup hnodup (List.nodup_dedup _)).2 fun name => ?_
  rw [List.mem_dedup]
  exact hbuilt.mem_documentsIn_iff hmake

/-- So every topic has its own document exactly if no two share their name. -/
theorem documents_kept_iff {inputs : Inputs} (hm : generate inputs = .ok m)
    (h : write m dir format {} = .ok (summary, tree)) :
    (documentsIn tree dir).Perm (m.shownTopics.map (documentName format)).dedup ∧
    ((documentsIn tree dir).length = m.shownTopics.length ∧
        (∀ t ∈ m.shownTopics,
          tree.read (Path.join (manDir dir) (documentName format t)) = .ok (format.render t)) ↔
      ∀ t ∈ m.shownTopics, ∀ u ∈ m.shownTopics, fileName t.id = fileName u.id → t.id = u.id) := by
  have hperm := perm_documentsIn h
  refine ⟨hperm, ?_⟩
  rw [← nodup_documentName_iff format hm, hperm.length_eq]
  constructor
  · rintro ⟨hcount, -⟩
    refine List.dedup_eq_self.1 ((List.dedup_sublist _).eq_of_length ?_)
    rw [hcount, List.length_map]
  · intro hnames
    refine ⟨by rw [hnames.dedup, List.length_map], fun t ht => ?_⟩
    obtain ⟨made, base, -, -, hbuilt, -⟩ := exists_built FileTree.wellNamed_empty h
    obtain ⟨front, back, hshown⟩ := List.append_of_mem ht
    refine hbuilt.read_document hshown fun u hu heq => ?_
    rw [hshown, List.map_append, List.map_cons] at hnames
    exact (List.nodup_cons.1 (List.nodup_append.1 hnames).2.1).1
      (heq ▸ List.mem_map_of_mem hu)

/-- Two methods on operators. -/
def operatorMethods (first second : String) : Inputs :=
  { units := [⟨"R/a.R", "#' First\nsetMethod(\"" ++ first ++ "\", \"A\", function(e1, e2) e1)\n\n" ++
      "#' Second\nsetMethod(\"" ++ second ++ "\", \"A\", function(e1, e2) e2)\n"⟩] }

theorem documents_kept_plus_less :
    ∃ m summary tree, generate (operatorMethods "+" "<") = .ok m ∧
      write m "out" .rd {} = .ok (summary, tree) ∧
      m.shownTopics.map (·.id) = ["+,A-method", "<,A-method"] ∧
      (documentsIn tree "out").length = m.shownTopics.length ∧
      ∀ t ∈ m.shownTopics,
        tree.read (Path.join "out/man" (documentName .rd t)) = .ok (Format.rd.render t) := by
  have heval : ((generate (operatorMethods "+" "<")).toOption.bind fun m =>
      (write m "out" .rd {}).toOption.map fun _ =>
        (m.shownTopics.map (·.id), decide (∀ t ∈ m.shownTopics, ∀ u ∈ m.shownTopics,
          fileName t.id = fileName u.id → t.id = u.id))) =
      some (["+,A-method", "<,A-method"], true) := by decide +kernel
  obtain ⟨m, hgen, heval⟩ := toOption_bind_eq_some_iff.1 heval
  obtain ⟨⟨summary, tree⟩, hwrite, heval⟩ := toOption_map_eq_some_iff.1 heval
  rw [Prod.mk.injEq, decide_eq_true_eq] at heval
  obtain ⟨hids, hinj⟩ := heval
  obtain ⟨hcount, hread⟩ := (documents_kept_iff hgen hwrite).2.2 hinj
  exact ⟨m, summary, tree, hgen, hwrite, hids, hcount, hread⟩

/-- Of the methods on `<` and `>` only the second has a document. -/
theorem exists_document_overwritten :
    ∃ m summary tree less greater, generate (operatorMethods "<" ">") = .ok m ∧
      write m "out" .rd {} = .ok (summary, tree) ∧ m.shownTopics = [less, greater] ∧
      less.id = "<,A-method" ∧ greater.id = ">,A-method" ∧
      documentsIn tree "out" = ["_,A-method.Rd"] ∧
      tree.read "out/man/_,A-method.Rd" = .ok (Format.rd.render greater) := by
  have heval : ((generate (operatorMethods "<" ">")).toOption.bind fun m =>
      (write m "out" .rd {}).toOption.map fun _ => m.shownTopics.map (·.id)) =
      some ["<,A-method", ">,A-method"] := by decide +kernel
  obtain ⟨m, hgen, heval⟩ := toOption_bind_eq_some_iff.1 heval
  obtain ⟨⟨summary, tree⟩, hwrite, hids⟩ := toOption_map_eq_some_iff.1 heval
  obtain ⟨less, rest, hshown, hless, hrest⟩ := List.map_eq_cons_iff.1 hids
  obtain ⟨greater, rfl, hgreater⟩ := List.map_eq_singleton_iff.1 hrest
  have hnames : m.shownTopics.map (documentName .rd) = ["_,A-method.Rd", "_,A-method.Rd"] := by
    rw [hshown, List.map_cons, List.map_cons, documentName, documentName, hless, hgreater]
    decide
  have hperm := perm_documentsIn hwrite
  rw [hnames] at hperm
  refine ⟨m, summary, tree, less, greater, hgen, hwrite, hshown, hless, hgreater,
    List.perm_singleton.1 hperm, ?_⟩
  obtain ⟨made, base, -, -, hbuilt, -⟩ := exists_built FileTree.wellNamed_empty hwrite
  have hlast : m.shownTopics = [less] ++ greater :: [] := hshown
  have hread := hbuilt.read_document hlast (by simp)
  rwa [documentName, hgreater] at hread

end OutputDir

end DocTopics
