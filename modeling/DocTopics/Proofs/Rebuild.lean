import DocTopics.Proofs.BuildTree
import DocTopics.Proofs.Lines

/-!
# Building again after a change

A build over an earlier one should leave what it leaves in an empty tree. Rd documents are
recognised by their first line, so those that lost their topic go. JSON documents have no such line,
and stay.
-/

namespace DocTopics.OutputDir

variable {m : Manual} {dir : String} {format : Format} {tree tree' made : FileTree}
variable {base loc : Location}

/-! ### The first line of a document -/

theorem hasHeader_of_lines {text first : String} {rest : List String}
    (h : Text.lines text = first :: rest) :
    HasHeader text ↔ generatedHeader.toList <:+: first.toList := by
  constructor
  · rintro ⟨first', rest', h', hinfix⟩
    rw [h] at h'
    injection h' with hfirst
    rwa [hfirst]
  · exact fun hinfix => ⟨first, rest, h, hinfix⟩

theorem lines_of_toList {text : String} {body rest : List Char}
    (h : text.toList = body ++ '\n' :: rest) (hbody : '\n' ∉ body)
    (hlast : body.getLast? ≠ some '\r') :
    ∃ more, Text.lines text = String.ofList body :: more := by
  refine ⟨(Chars.lines rest).map String.ofList, ?_⟩
  rw [Text.lines, h, Chars.lines_append rest hbody hlast, List.map_cons]

theorem hasHeader_rd (t : Topic) : HasHeader (Rd.render t) := by
  obtain ⟨rest, hrest⟩ : ∃ rest, (Rd.render t).toList =
      ("% " ++ generatedHeader).toList ++ '\n' :: rest := by
    have hrender : Rd.render t = Rd.header t ++ String.join (Rd.parts t).tail := String.join_cons
    have hnewline : ("\n" : String).toList = ['\n'] := rfl
    rw [hrender, Rd.header]
    simp only [String.toList_append, List.append_assoc, hnewline, List.cons_append, List.nil_append]
    exact ⟨_, rfl⟩
  obtain ⟨more, hlines⟩ := lines_of_toList hrest (by decide) (by decide)
  rw [hasHeader_of_lines hlines, String.toList_ofList, String.toList_append]
  exact (List.suffix_append _ _).isInfix

/-- The first line of a JSON document is a brace. -/
theorem not_hasHeader_json (t : Topic) : ¬HasHeader (Json.render t) := by
  obtain ⟨rest, hrest⟩ : ∃ rest, (Json.render t).toList = ['\x7b'] ++ '\n' :: rest := by
    have hbrace : ("\x7b" : String).toList = ['\x7b'] := rfl
    simp only [Json.render, Json.ofTopic, Json.pretty, Json.newline, String.toList_append,
      String.toList_ofList, List.append_assoc, hbrace, List.cons_append, List.nil_append]
    exact ⟨_, rfl⟩
  obtain ⟨more, hlines⟩ := lines_of_toList hrest (by decide) (by decide)
  rw [hasHeader_of_lines hlines, String.toList_ofList]
  intro hinfix
  exact absurd hinfix.length_le (by decide)

theorem hasHeader_render_iff {t : Topic} : HasHeader (format.render t) ↔ format = .rd := by
  cases format with
  | rd => exact ⟨fun _ => rfl, fun _ => hasHeader_rd t⟩
  | json => exact ⟨fun h => absurd h (not_hasHeader_json t), fun h => absurd h (by decide)⟩

theorem extension?_documentName {t : Topic} (h : t.id ≠ "") :
    Path.extension? (documentName format t) = some format.extension := by
  have hname : fileName t.id ≠ "" := by
    intro hempty
    have hlist := congrArg String.toList hempty
    exact h (by simpa [fileName] using hlist)
  have hdot : '.' ∉ format.extension.toList := by cases format <;> decide
  rw [Path.extension?, documentName, Path.splitExtension_append hname hdot, Option.map_some]

/-! ### Building from nothing -/

theorem get?_empty (loc : Location) (contents : Contents) :
    ({} : FileTree).get? loc ≠ some (.file contents) := by
  unfold FileTree.get?
  split <;> simp

theorem not_removable_of_empty {name : String} (hmake : makeManDir {} dir = .ok made) :
    ¬Removable m dir format made (base ++ ["man"]) name := by
  rintro ⟨hleft, -⟩
  obtain ⟨text, htext, -⟩ := hleft.generated
  exact get?_empty _ _ ((file_makeManDir_iff hmake).1 htext)

theorem get?_of_ready_of_empty {f : Placed} (hmake : makeManDir {} dir = .ok made)
    (h : f.Ready made) : made.get? f.place = none := by
  cases hget : made.get? f.place with
  | none => rfl
  | some node =>
    cases node with
    | file contents => exact absurd ((file_makeManDir_iff hmake).1 hget) (get?_empty _ _)
    | dir => exact absurd hget h.2

/-! ### Two builds -/

/-- Two builds of a manual agree on its files. -/
theorem Built.get?_eq_of_place {made' tree'' : FileTree} (h : Built m dir format made tree' base)
    (h' : Built m dir format made' tree'' base)
    (hloc : ∃ f ∈ documentFiles m dir format base ++ tableFiles m dir base, f.place = loc) :
    tree'.get? loc = tree''.get? loc := by
  by_cases hdocument : ∃ f ∈ documentFiles m dir format base, f.place = loc
  · obtain ⟨front, f, back, hfiles, rfl, hlast⟩ := exists_last hdocument
    rw [h.get?_document front f back hfiles hlast, h'.get?_document front f back hfiles hlast]
  · obtain ⟨f, hf, rfl⟩ := hloc
    rcases List.mem_append.1 hf with hf | hf
    · exact absurd ⟨f, hf, rfl⟩ hdocument
    · rw [h.get?_table f hf, h'.get?_table f hf]

section TwoBuilds

variable {m₁ m₂ : Manual} {summary₁ summary₂ : Summary} {first second : FileTree}

/-- A manual that can be built over another can be built alone, and stands in the same place. -/
theorem exists_built_alone (h₁ : write m₁ dir format {} = .ok (summary₁, first))
    (h₂ : write m₂ dir format first = .ok (summary₂, second)) :
    ∃ made base summary alone, makeManDir {} dir = .ok made ∧
      Built m₁ dir format made first base ∧ Built m₂ dir format first second base ∧
      write m₂ dir format {} = .ok (summary, alone) ∧ Built m₂ dir format made alone base := by
  obtain ⟨made, base, -, hmake, hbuilt₁, -⟩ := exists_built FileTree.wellNamed_empty h₁
  obtain ⟨made₂, base₂, -, hmake₂, hbuilt₂, -⟩ := exists_built hbuilt₁.wellNamed h₂
  have hsite₁ := hbuilt₁.site.of_sameDirs hbuilt₁.sameDirs
  -- the directory of the documents is there already
  obtain rfl : made₂ = first := by
    rw [hsite₁.makeManDir_eq] at hmake₂
    exact (Except.ok.inj hmake₂).symm
  obtain rfl := hsite₁.unique hbuilt₂.site
  have hready : ∀ f ∈ documentFiles m₂ dir format base ++ tableFiles m₂ dir base, f.Ready made :=
    fun f hf => (hbuilt₂.ready f hf).of_sameDirs hbuilt₁.sameDirs.symm
  have hwell := wellNamed_makeManDir FileTree.wellNamed_empty hmake
  have halone := write_of_ready hmake hwell hbuilt₁.site hready
    fun name => not_removable_of_empty hmake
  obtain ⟨made₃, base₃, -, hmake₃, hbuilt₃, -⟩ := exists_built FileTree.wellNamed_empty halone
  obtain rfl : made = made₃ := by
    rw [hmake] at hmake₃
    exact Except.ok.inj hmake₃
  obtain rfl := hbuilt₁.site.unique hbuilt₃.site
  exact ⟨made, base, _, _, hmake, hbuilt₁, hbuilt₂, halone, hbuilt₃⟩

/-- From nothing, a build changes only its own files. -/
theorem Built.get?_of_empty (h : Built m dir format made tree' base)
    (hmake : makeManDir {} dir = .ok made)
    (hloc : ∀ f ∈ documentFiles m dir format base ++ tableFiles m dir base, f.place ≠ loc) :
    tree'.get? loc = made.get? loc :=
  h.get?_other loc hloc fun _ hname => absurd hname (not_removable_of_empty hmake)

/-- A document of the first manual that the second does not write. -/
def Orphaned (m₁ m₂ : Manual) (format : Format) (name : String) : Prop :=
  (∃ t ∈ m₁.shownTopics, documentName format t = name) ∧
    ∀ u ∈ m₂.shownTopics, documentName format u ≠ name

variable {name : String}

theorem Built.format_of_removable (h : Built m₁ dir format made first base)
    (horphan : Orphaned m₁ m₂ format name)
    (hremovable : Removable m₂ dir format first (base ++ ["man"]) name) : format = .rd := by
  obtain ⟨t, -, -, hget⟩ := h.exists_text horphan.1
  obtain ⟨text, htext, hheader⟩ := hremovable.1.generated
  rw [hget, Option.some_inj, Node.file.injEq, Contents.text.injEq] at htext
  exact hasHeader_render_iff.1 (htext ▸ hheader)

/-- What a document of the first build is taken for by the second one hangs on its format. -/
theorem Built.removable_iff_of_orphaned (h : Built m₁ dir format made first base)
    (hids : ∀ t ∈ m₁.shownTopics, t.id ≠ "") (horphan : Orphaned m₁ m₂ format name) :
    Removable m₂ dir format first (base ++ ["man"]) name ↔ format = .rd := by
  refine ⟨h.format_of_removable horphan, fun hformat => ?_⟩
  obtain ⟨t, ht, hname, hget⟩ := h.exists_text horphan.1
  refine ⟨⟨hname ▸ extension?_documentName (hids t ht), horphan.2, _, hget,
    hasHeader_render_iff.2 hformat⟩, ?_⟩
  obtain ⟨⟨-, hsize, -⟩, -⟩ :=
    FileTree.locate_eq_ok_iff.1 (h.ready _ (List.mem_append_left _ (mem_documentFiles ht))).1
  rw [← hname]
  exact hsize

/-- The second build finds nothing else to remove. -/
theorem Built.orphaned_of_removable (h : Built m₁ dir format made first base)
    (hmake : makeManDir {} dir = .ok made)
    (hremovable : Removable m₂ dir format first (base ++ ["man"]) name) :
    Orphaned m₁ m₂ format name := by
  refine ⟨?_, hremovable.1.noTopic⟩
  by_contra hnone
  push Not at hnone
  obtain ⟨text, htext, -⟩ := hremovable.1.generated
  rw [h.get?_of_empty hmake (place_ne hnone), file_makeManDir_iff hmake] at htext
  exact get?_empty _ _ htext

theorem Built.get?_alone {alone : FileTree} (h₁ : Built m₁ dir format made first base)
    (h : Built m₂ dir format made alone base) (hmake : makeManDir {} dir = .ok made)
    (horphan : Orphaned m₁ m₂ format name) : alone.get? (base ++ ["man"] ++ [name]) = none := by
  rw [h.get?_of_empty hmake (place_ne horphan.2)]
  obtain ⟨⟨t, ht, rfl⟩, -⟩ := horphan
  exact get?_of_ready_of_empty hmake (h₁.ready _ (List.mem_append_left _ (mem_documentFiles ht)))

theorem Built.get?_again (h₁ : Built m₁ dir format made first base)
    (h₂ : Built m₂ dir format first second base) (hids : ∀ t ∈ m₁.shownTopics, t.id ≠ "")
    (horphan : Orphaned m₁ m₂ format name) :
    second.get? (base ++ ["man"] ++ [name]) =
      if format = .rd then none else first.get? (base ++ ["man"] ++ [name]) := by
  have hremovable := h₁.removable_iff_of_orphaned hids horphan
  by_cases hformat : format = .rd
  · rw [if_pos hformat]
    exact h₂.get?_gone name (hremovable.2 hformat)
  · rw [if_neg hformat]
    refine h₂.get?_other _ (place_ne horphan.2) fun other hother heq => ?_
    obtain rfl : other = name := by simpa using heq
    exact hformat (hremovable.1 hother)

theorem Built.get?_eq_alone {alone : FileTree} (h₁ : Built m₁ dir format made first base)
    (h₂ : Built m₂ dir format first second base) (h : Built m₂ dir format made alone base)
    (hmake : makeManDir {} dir = .ok made)
    (hnone : ∀ name, loc = base ++ ["man"] ++ [name] → ¬Orphaned m₁ m₂ format name) :
    second.get? loc = alone.get? loc := by
  by_cases hplace : ∃ f ∈ documentFiles m₂ dir format base ++ tableFiles m₂ dir base, f.place = loc
  · exact h₂.get?_eq_of_place h hplace
  · push Not at hplace
    -- at any other place nothing happened since the directory was made
    have hfirst : ∀ f ∈ documentFiles m₁ dir format base ++ tableFiles m₁ dir base,
        f.place ≠ loc := by
      intro f hf heq
      rcases List.mem_append.1 hf with hf | hf
      · obtain ⟨t, ht, rfl⟩ := List.mem_map.1 hf
        refine hnone (documentName format t) heq.symm ⟨⟨t, ht, rfl⟩, fun u hu hname => ?_⟩
        refine hplace (documentFile dir format base u)
          (List.mem_append_left _ (mem_documentFiles hu)) ?_
        rw [← heq, documentFile, documentFile, hname]
      · have hmem : f.place ∈ (tableFiles m₂ dir base).map (·.place) :=
          List.mem_map_of_mem (f := (·.place)) hf
        obtain ⟨g, hg, hgf⟩ := List.mem_map.1 hmem
        exact hplace g (List.mem_append_right _ hg) (hgf.trans heq)
    rw [h.get?_of_empty hmake hplace, ← h₁.get?_of_empty hmake hfirst]
    exact h₂.get?_other loc hplace fun name hname heq =>
      hnone name heq.symm (h₁.orphaned_of_removable hmake hname)

/-- A build over another from an empty tree leaves what it leaves alone, but for the JSON documents
that lost their topic, which stay. So Rd documents never survive, and JSON documents always do. -/
theorem rebuild_differs_iff (hids : ∀ t ∈ m₁.shownTopics, t.id ≠ "")
    (h₁ : write m₁ dir format {} = .ok (summary₁, first))
    (h₂ : write m₂ dir format first = .ok (summary₂, second)) :
    ∃ summary alone man, write m₂ dir format {} = .ok (summary, alone) ∧
      second.locate (manDir dir) = .ok man ∧
      (∀ loc, second.get? loc ≠ alone.get? loc ↔
        format = .json ∧ ∃ name, loc = man ++ [name] ∧ Orphaned m₁ m₂ format name) ∧
      (∀ name, format = .json → Orphaned m₁ m₂ format name →
        ∃ t ∈ m₁.shownTopics, documentName format t = name ∧
          second.get? (man ++ [name]) = some (.file (.text (format.render t)))) := by
  obtain ⟨made, base, summary, alone, hmake, hbuilt₁, hbuilt₂, halone, hbuilt⟩ :=
    exists_built_alone h₁ h₂
  have hstays : ∀ name, format = .json → Orphaned m₁ m₂ format name →
      ∃ t ∈ m₁.shownTopics, documentName format t = name ∧
        second.get? (base ++ ["man"] ++ [name]) = some (.file (.text (format.render t))) := by
    intro name hjson horphan
    rw [hbuilt₁.get?_again hbuilt₂ hids horphan, if_neg (by simp [hjson])]
    exact hbuilt₁.exists_text horphan.1
  refine ⟨summary, alone, base ++ ["man"], halone,
    (hbuilt₂.site.of_sameDirs hbuilt₂.sameDirs).locate_man, fun loc => ⟨fun hne => ?_, ?_⟩, hstays⟩
  · by_cases horphan : ∃ name, loc = base ++ ["man"] ++ [name] ∧ Orphaned m₁ m₂ format name
    · refine ⟨?_, horphan⟩
      obtain ⟨name, rfl, horphan⟩ := horphan
      rw [hbuilt₁.get?_again hbuilt₂ hids horphan,
        hbuilt₁.get?_alone hbuilt hmake horphan] at hne
      cases format with
      | rd => exact absurd (if_pos rfl) hne
      | json => rfl
    · push Not at horphan
      exact absurd (hbuilt₁.get?_eq_alone hbuilt₂ hbuilt hmake horphan) hne
  · rintro ⟨hjson, name, rfl, horphan⟩
    obtain ⟨t, -, -, hget⟩ := hstays name hjson horphan
    rw [hget, hbuilt₁.get?_alone hbuilt hmake horphan]
    simp

end TwoBuilds

/-- A function of another name. -/
def borderOnly : Inputs :=
  { units := [⟨"R/a.R", "#' Border\nborder <- function(shape) 0\n"⟩] }

theorem rebuild_rd_areaOnly :
    ∃ m₁ m₂ summary₁ summary₂ summary first second alone, generate areaOnly = .ok m₁ ∧
      generate borderOnly = .ok m₂ ∧ write m₁ "out" .rd {} = .ok (summary₁, first) ∧
      write m₂ "out" .rd first = .ok (summary₂, second) ∧
      write m₂ "out" .rd {} = .ok (summary, alone) ∧ summary₂.removed = ["out/man/area.Rd"] ∧
      ∀ loc, second.get? loc = alone.get? loc := by
  have heval : ((generate areaOnly).toOption.bind fun m₁ =>
      (generate borderOnly).toOption.bind fun m₂ =>
      (write m₁ "out" .rd {}).toOption.bind fun first =>
      (write m₂ "out" .rd first.2).toOption.map fun second =>
        (decide (∀ t ∈ m₁.shownTopics, t.id ≠ ""), second.1.removed)) =
      some (true, ["out/man/area.Rd"]) := by decide +kernel
  obtain ⟨m₁, hgen₁, heval⟩ := toOption_bind_eq_some_iff.1 heval
  obtain ⟨m₂, hgen₂, heval⟩ := toOption_bind_eq_some_iff.1 heval
  obtain ⟨⟨summary₁, first⟩, hwrite₁, heval⟩ := toOption_bind_eq_some_iff.1 heval
  obtain ⟨⟨summary₂, second⟩, hwrite₂, heval⟩ := toOption_map_eq_some_iff.1 heval
  rw [Prod.mk.injEq, decide_eq_true_eq] at heval
  obtain ⟨hids, hremoved⟩ := heval
  obtain ⟨summary, alone, man, halone, -, hdiffer, -⟩ := rebuild_differs_iff hids hwrite₁ hwrite₂
  refine ⟨m₁, m₂, summary₁, summary₂, summary, first, second, alone, hgen₁, hgen₂, hwrite₁, hwrite₂,
    halone, hremoved, fun loc => ?_⟩
  by_contra hne
  exact absurd ((hdiffer loc).1 hne).1 (by decide)

/-- Over JSON documents every manual can be built that can be built alone, and nothing is removed. -/
theorem exists_write_over_json {m₁ m₂ : Manual} {summary₁ summary : Summary} {first alone : FileTree}
    (h₁ : write m₁ dir .json {} = .ok (summary₁, first))
    (h : write m₂ dir .json {} = .ok (summary, alone)) :
    ∃ second, write m₂ dir .json first =
      .ok (⟨(documents m₂ dir .json ++ tables m₂ dir).map (·.path), []⟩, second) := by
  obtain ⟨made, base, -, hmake, hbuilt₁, -⟩ := exists_built FileTree.wellNamed_empty h₁
  obtain ⟨made', base', -, hmake', hbuilt, -⟩ := exists_built FileTree.wellNamed_empty h
  obtain rfl : made = made' := by
    rw [hmake] at hmake'
    exact Except.ok.inj hmake'
  obtain rfl := hbuilt₁.site.unique hbuilt.site
  have hsite := hbuilt₁.site.of_sameDirs hbuilt₁.sameDirs
  refine ⟨_, write_of_ready hsite.makeManDir_eq hbuilt₁.wellNamed hsite
    (fun f hf => (hbuilt.ready f hf).of_sameDirs hbuilt₁.sameDirs) fun name hremovable => ?_⟩
  have hrd := hbuilt₁.format_of_removable (hbuilt₁.orphaned_of_removable hmake hremovable) hremovable
  exact absurd hrd (by decide)

/-- The document of a topic that is gone stays. -/
theorem exists_stale_json_kept :
    ∃ m₁ m₂ summary₁ summary₂ summary first second alone, generate areaOnly = .ok m₁ ∧
      generate borderOnly = .ok m₂ ∧ (∀ t ∈ m₁.topics ++ m₂.topics, t.id ≠ "") ∧
      write m₁ "out" .json {} = .ok (summary₁, first) ∧
      write m₂ "out" .json first = .ok (summary₂, second) ∧
      write m₂ "out" .json {} = .ok (summary, alone) ∧ summary₂.removed = [] ∧
      ∃ loc, second.get? loc ≠ none ∧ alone.get? loc = none := by
  have heval : ((generate areaOnly).toOption.bind fun m₁ =>
      (generate borderOnly).toOption.bind fun m₂ =>
      (write m₁ "out" .json {}).toOption.bind fun _ =>
      (write m₂ "out" .json {}).toOption.map fun _ =>
        (decide (∀ t ∈ m₁.topics ++ m₂.topics, t.id ≠ ""),
          m₁.shownTopics.map (documentName .json), m₂.shownTopics.map (documentName .json))) =
      some (true, ["area.json"], ["border.json"]) := by decide +kernel
  obtain ⟨m₁, hgen₁, heval⟩ := toOption_bind_eq_some_iff.1 heval
  obtain ⟨m₂, hgen₂, heval⟩ := toOption_bind_eq_some_iff.1 heval
  obtain ⟨⟨summary₁, first⟩, hwrite₁, heval⟩ := toOption_bind_eq_some_iff.1 heval
  obtain ⟨⟨summary, alone⟩, halone, heval⟩ := toOption_map_eq_some_iff.1 heval
  simp only [Prod.mk.injEq, decide_eq_true_eq] at heval
  obtain ⟨hids, hnames₁, hnames₂⟩ := heval
  obtain ⟨second, hwrite₂⟩ := exists_write_over_json hwrite₁ halone
  have horphan : Orphaned m₁ m₂ .json "area.json" := by
    refine ⟨List.mem_map.1 (hnames₁ ▸ List.mem_singleton_self _), fun u hu hname => ?_⟩
    have hmem := List.mem_map_of_mem (f := documentName .json) hu
    rw [hnames₂, hname] at hmem
    exact absurd hmem (by decide)
  have hids₁ : ∀ t ∈ m₁.shownTopics, t.id ≠ "" :=
    fun t ht => hids t (List.mem_append_left _ (List.mem_of_mem_filter ht))
  obtain ⟨made, base, summary', alone', hmake, hbuilt₁, hbuilt₂, halone', hbuilt⟩ :=
    exists_built_alone hwrite₁ hwrite₂
  obtain rfl : alone' = alone := by
    rw [halone, Except.ok.injEq, Prod.mk.injEq] at halone'
    exact halone'.2.symm
  refine ⟨m₁, m₂, summary₁, _, summary, first, second, alone', hgen₁, hgen₂, hids, hwrite₁, hwrite₂,
    halone, rfl, base ++ ["man"] ++ ["area.json"], ?_, hbuilt₁.get?_alone hbuilt hmake horphan⟩
  obtain ⟨t, -, -, hget⟩ := hbuilt₁.exists_text horphan.1
  rw [hbuilt₁.get?_again hbuilt₂ hids₁ horphan, if_neg (by decide), hget]
  simp

end DocTopics.OutputDir
