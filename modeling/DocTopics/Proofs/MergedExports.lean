import DocTopics.Proofs.ExportList
import DocTopics.Proofs.Merging

/-!
# Exports of merged topics

A group of topics is exported as a whole once one of its topics is. So merging changes the directives
only as far as it spreads the wish to export over each group: what was exported stays so, and a
declaration gives the same directive in the merged topic as in the topic it came from.

## Main definitions

- `Topic.exportedAmong` — a topic that is exported whenever its group is

## Main statements

- `Topic.exportsOf_merge` — the directives of merged topics
-/

namespace DocTopics.Topic

/-- The topic, exported if any of the given topics of its identifier is. -/
def exportedAmong (topics : List Topic) (t : Topic) : Topic :=
  { t with exported := topics.any fun u => u.id == t.id && u.exported }

theorem exported_exportedAmong_iff {topics : List Topic} {t : Topic} :
    (exportedAmong topics t).exported = true ↔ ∃ u ∈ topics, u.id = t.id ∧ u.exported = true := by
  simp [exportedAmong]

theorem mem_exports_exportedAmong {topics : List Topic} {e : Export} :
    e ∈ (topics.map (exportedAmong topics)).flatMap exports ↔
      ∃ a ∈ topics, ∃ b ∈ topics, a.id = b.id ∧ a.exported = true ∧
        ∃ d ∈ b.subjects, e ∈ Export.ofSubject b.docType d := by
  simp only [List.flatMap_map, List.mem_flatMap, mem_exports, exported_exportedAmong_iff]
  constructor
  · rintro ⟨b, hb, ⟨a, ha, hid, hexported⟩, hdirective⟩
    exact ⟨a, ha, b, hb, hid, hexported, hdirective⟩
  · rintro ⟨a, ha, b, hb, hid, hexported, hdirective⟩
    exact ⟨b, hb, ⟨a, ha, hid, hexported⟩, hdirective⟩

/-- A declaration gives the same directives in the merged topic as in the topic it came from. -/
theorem Groups.ofSubject_eq {topics groups : List Topic} (h : Groups topics groups) {t : Topic}
    (ht : t ∈ topics) :
    ∃ g ∈ groups, g.id = t.id ∧ (t.exported = true → g.exported = true) ∧
      ∀ d ∈ t.subjects, d ∈ g.subjects ∧
        Export.ofSubject g.docType d = Export.ofSubject t.docType d := by
  obtain ⟨g, hg, hid⟩ := h.covers t ht
  refine ⟨g, hg, hid, fun hexported => ?_, fun d hd => ⟨?_, ?_⟩⟩
  · exact (h.adds g hg).gathers.exported.2 ⟨t, by simp [ht, hid], hexported⟩
  · exact (h.mem_subjects hg).2 ⟨t, ht, hid.symm, hd⟩
  · rw [h.docType hg ht hid.symm]

/-- Merging loses no export. The directives of the merged topics are those of the topics themselves,
with every topic exported that shares its identifier with an exported one. So they include all
directives of the topics as they were, and every declaration is found in the merged topic of its
identifier with the directives it had. -/
theorem exportsOf_merge {topics merged : List Topic} (h : merge topics = .ok merged) :
    exportsOf merged = exportsOf (topics.map (exportedAmong topics)) ∧
    exportsOf topics ⊆ exportsOf merged ∧
    ∀ t ∈ topics, ∃ g ∈ merged, g.id = t.id ∧ (t.exported = true → g.exported = true) ∧
      ∀ d ∈ t.subjects, d ∈ g.subjects ∧
        Export.ofSubject g.docType d = Export.ofSubject t.docType d := by
  have hgroups := groups_of_merge h
  refine ⟨exportsOf_eq_of_mem_iff fun e => ?_, fun e he => ?_, fun t ht => ?_⟩
  · rw [hgroups.mem_exports, mem_exports_exportedAmong]
    simp only [mem_inSourceOrder]
  · obtain ⟨t, ht, hte⟩ := List.mem_flatMap.1 (mem_exportsOf.1 he)
    obtain ⟨hexported, hdirective⟩ := mem_exports.1 hte
    have hsource := mem_inSourceOrder.2 ht
    exact mem_exportsOf.2 (hgroups.mem_exports.2
      ⟨t, hsource, t, hsource, rfl, hexported, hdirective⟩)
  · exact hgroups.ofSubject_eq (mem_inSourceOrder.2 ht)

/-- Two topics of one identifier, of which the later one is exported, and a topic that is not. The
declarations are methods of both kinds, one with a name of its own to export, and a function. -/
def partlyExported : List Topic :=
  [{ id := "area", place := ⟨0, 9⟩, pos := ⟨"R/a.R", 9⟩, docType := .method, exported := true
     subjects := [{ declaration := { kind := .method, name := "area", dispatch := ["Disk"] }
                    s3 := true }] },
   { id := "area", place := ⟨0, 2⟩, pos := ⟨"R/a.R", 2⟩, docType := .method
     subjects := [{ declaration := { kind := .method, name := "area", dispatch := ["Box"] } },
                  { declaration := { kind := .function, name := "side" }
                    exportNames := ["edge"] }] },
   { id := "helper", place := ⟨0, 5⟩, pos := ⟨"R/a.R", 5⟩, docType := .function
     subjects := [{ declaration := { kind := .function, name := "helper" } }] }]

theorem exportsOf_merge_partlyExported :
    ∃ merged, merge partlyExported = .ok merged ∧
      exportsOf merged = exportsOf (partlyExported.map (exportedAmong partlyExported)) ∧
      exportsOf partlyExported ⊆ exportsOf merged ∧
      exportsOf partlyExported = [.s3Method "area" "Disk"] ∧
      exportsOf merged = [.symbol "edge", .s3Method "area" "Disk", .s4Methods "area"] := by
  have heval : (merge partlyExported).toOption.map exportsOf =
      some [.symbol "edge", .s3Method "area" "Disk", .s4Methods "area"] := by decide
  obtain ⟨merged, hmerge, hexports⟩ := toOption_map_eq_some_iff.1 heval
  obtain ⟨heq, hsubset, -⟩ := exportsOf_merge hmerge
  exact ⟨merged, hmerge, heq, hsubset, by decide, hexports⟩

end DocTopics.Topic
