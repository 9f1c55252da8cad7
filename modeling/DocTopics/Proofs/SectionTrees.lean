import DocTopics.Proofs.Lines
import DocTopics.Proofs.Pieces
import DocTopics.Proofs.Trimming
import DocTopics.Topic.Section

/-!
# Written sections

A section is written as its title and a colon, the lines of its body, and its subsections, each
behind a heading line with one hash sign more than its parent has. The text is joined and split
again at every level, so headings of deeper levels have to pass through as ordinary lines. Reading a
written section gives back the whole tree.

## Main definitions

- `Section.print` — the text of a section
- `Section.IsTitle`, `Section.IsBody`, `Section.Legible` — the sections that can be written

## Main statements

- `Section.splitHeadings_linesBelow` — a level is split at its own headings and nowhere else
- `Section.nest_linesBelow` — the lines of a section are read as the section
- `Section.ofText_print` — so is its text
-/

namespace DocTopics.Section

/-! ### Writing -/

/-- The line that opens a subsection. -/
def headingLine (level : Nat) (title : String) : String :=
  String.ofList (List.replicate level '#') ++ " " ++ title

/-- The lines of a body; an empty body has none. -/
def bodyLines (body : String) : List String :=
  if body = "" then [] else Text.splitOn '\n' body

mutual

/-- The lines of a section below its title, for subsections of the given level. -/
def linesBelow (level : Nat) : Section → List String
  | ⟨_, body, subsections⟩ => bodyLines body ++ subsectionLines level subsections

/-- The heading of each subsection and the lines below it. -/
def subsectionLines (level : Nat) : List Section → List String
  | [] => []
  | s :: rest =>
    headingLine level s.title :: (linesBelow (level + 1) s ++ subsectionLines level rest)

end

/-- A section as it is written. -/
def print (s : Section) : String :=
  Text.joinLines ((s.title ++ ":") :: s.linesBelow 2)

/-- A title that fills a line: neither empty nor with white space at its ends. -/
structure IsTitle (title : String) : Prop where
  ne_empty : title ≠ ""
  trimmed : Text.trim title = title
  newline_notMem : '\n' ∉ title.toList

/-- A body without white space at its ends, none of whose lines looks like a heading. -/
structure IsBody (body : String) : Prop where
  trimmed : Text.trim body = body
  return_notMem : '\r' ∉ body.toList
  no_heading : ∀ line ∈ Text.splitOn '\n' body, ¬['#', '#'] <+: Chars.trimStart line.toList

instance (title : String) : Decidable (IsTitle title) :=
  decidable_of_iff (title ≠ "" ∧ Text.trim title = title ∧ '\n' ∉ title.toList)
    ⟨fun ⟨h₁, h₂, h₃⟩ => ⟨h₁, h₂, h₃⟩, fun h => ⟨h.ne_empty, h.trimmed, h.newline_notMem⟩⟩

instance (body : String) : Decidable (IsBody body) :=
  decidable_of_iff (Text.trim body = body ∧ '\r' ∉ body.toList ∧
      ∀ line ∈ Text.splitOn '\n' body, ¬['#', '#'] <+: Chars.trimStart line.toList)
    ⟨fun ⟨h₁, h₂, h₃⟩ => ⟨h₁, h₂, h₃⟩, fun h => ⟨h.trimmed, h.return_notMem, h.no_heading⟩⟩

/-- All bodies of a section can be written, and so can the titles inside it. -/
inductive Legible : Section → Prop
  | mk {title body : String} {subsections : List Section} (body_isBody : IsBody body)
      (titles_isTitle : ∀ s ∈ subsections, IsTitle s.title)
      (inside : ∀ s ∈ subsections, Legible s) : Legible ⟨title, body, subsections⟩

/-! ### Lines and their headings -/

theorem textOf_toList (ls : List String) : textOf (ls.map String.toList) = Text.joinLines ls := by
  rw [textOf, List.map_map]
  simp

/-- Splitting a text whose first lines are no headings. -/
theorem splitHeadings_append {level : Nat} {lead : List (List Char)}
    (h : ∀ line ∈ lead, heading? level line = none) (rest : List (List Char)) :
    splitHeadings level (lead ++ rest) =
      (lead ++ (splitHeadings level rest).1, (splitHeadings level rest).2) := by
  induction lead with
  | nil => rfl
  | cons line lead ih =>
    obtain ⟨hline, hlead⟩ := List.forall_mem_cons.1 h
    rw [List.cons_append, splitHeadings, ih hlead, hline]
    rfl

/-- Each part that a text is split into was, behind its heading, a part of the text. -/
theorem sublist_splitHeadings (level : Nat) (ls : List (List Char)) :
    (splitHeadings level ls).1.Sublist ls ∧
      ∀ part ∈ (splitHeadings level ls).2, ∃ line, (line :: part.2).Sublist ls := by
  induction ls with
  | nil => exact ⟨List.Sublist.slnil, by simp [splitHeadings]⟩
  | cons line rest ih =>
    obtain ⟨hlead, hparts⟩ := ih
    have hlater : ∀ part ∈ (splitHeadings level rest).2,
        ∃ l, (l :: part.2).Sublist (line :: rest) := by
      intro part hpart
      obtain ⟨l, hl⟩ := hparts part hpart
      exact ⟨l, hl.cons line⟩
    rw [splitHeadings]
    cases heading? level line with
    | none => exact ⟨hlead.cons_cons line, hlater⟩
    | some title =>
      refine ⟨List.nil_sublist _, ?_⟩
      rw [List.forall_mem_cons]
      exact ⟨⟨line, hlead.cons_cons line⟩, hlater⟩

theorem nest_zero (title text : String) (level : Nat) :
    nest 0 title text level =
      { title := title
        body := Text.trim (textOf (splitHeadings level (Chars.lines text.toList)).1) } := by
  rw [nest]

theorem nest_succ (fuel : Nat) (title text : String) (level : Nat) :
    nest (fuel + 1) title text level =
      { title := title
        body := Text.trim (textOf (splitHeadings level (Chars.lines text.toList)).1)
        subsections := (splitHeadings level (Chars.lines text.toList)).2.map fun part =>
          nest fuel (String.ofList part.1) (textOf part.2) (level + 1) } := by
  rw [nest]

/-! ### Headings -/

theorem heading?_eq_some_iff {level : Nat} {line title : List Char} :
    heading? level line = some title ↔
      ∃ rest, Chars.trimStart line = List.replicate level '#' ++ ' ' :: rest ∧
        title = Chars.trim rest := by
  simp only [heading?, Option.map_eq_some_iff, Chars.past_eq_some_iff, List.append_assoc,
    List.singleton_append, eq_comm (a := title)]

theorem trimStart_headingLine {level : Nat} (h : 0 < level) (title : String) :
    Chars.trimStart (headingLine level title).toList =
      List.replicate level '#' ++ ' ' :: title.toList := by
  obtain ⟨k, rfl⟩ := Nat.exists_eq_add_of_lt h
  have hlist : (headingLine (0 + k + 1) title).toList =
      List.replicate (0 + k + 1) '#' ++ ' ' :: title.toList := by
    simp [headingLine]
  rw [hlist, List.replicate_succ]
  rfl

theorem heading?_headingLine {level : Nat} {title : String} (hlevel : 0 < level)
    (h : IsTitle title) : heading? level (headingLine level title).toList = some title.toList :=
  heading?_eq_some_iff.2 ⟨title.toList, trimStart_headingLine hlevel title,
    (Text.trim_eq_self_iff.1 h.trimmed).symm⟩

/-- A heading is no heading of a level with fewer hash signs. -/
theorem heading?_headingLine_of_lt {level deeper : Nat} (h : level < deeper) (title : String) :
    heading? level (headingLine deeper title).toList = none := by
  rw [Option.eq_none_iff_forall_ne_some]
  intro found hfound
  obtain ⟨rest, hstart, -⟩ := heading?_eq_some_iff.1 hfound
  obtain ⟨k, rfl⟩ := Nat.exists_eq_add_of_lt h
  -- behind `level` hash signs stands one more, where a heading of this level has a blank
  have hmore : List.replicate (level + k + 1) '#' =
      List.replicate level '#' ++ '#' :: List.replicate k '#' := by
    rw [Nat.add_assoc, List.replicate_add, List.replicate_succ]
  rw [trimStart_headingLine (by omega), hmore, List.append_assoc, List.append_cancel_left_eq,
    List.cons_append] at hstart
  exact absurd (List.cons.inj hstart).1 (by decide)

theorem heading?_of_not_prefix {level : Nat} {line : List Char} (hlevel : 2 ≤ level)
    (h : ¬['#', '#'] <+: Chars.trimStart line) : heading? level line = none := by
  rw [Option.eq_none_iff_forall_ne_some]
  intro found hfound
  obtain ⟨rest, hstart, -⟩ := heading?_eq_some_iff.1 hfound
  obtain ⟨k, rfl⟩ := Nat.exists_eq_add_of_le' hlevel
  apply h
  rw [hstart, List.replicate_succ, List.replicate_succ]
  exact ⟨List.replicate k '#' ++ ' ' :: rest, rfl⟩

/-! ### The lines of a section -/

theorem subsectionLines_eq_flatMap (level : Nat) (sections : List Section) :
    subsectionLines level sections =
      sections.flatMap fun s => headingLine level s.title :: s.linesBelow (level + 1) := by
  induction sections with
  | nil => rfl
  | cons s rest ih => rw [subsectionLines, ih, List.flatMap_cons, List.cons_append]

/-- A line below the title of a section belongs to a body, or it is a heading of this or a deeper
level. -/
theorem Legible.mem_linesBelow {s : Section} (h : s.Legible) {level : Nat} {line : String}
    (hline : line ∈ s.linesBelow level) :
    (∃ body, IsBody body ∧ line ∈ bodyLines body) ∨
      ∃ deeper title, level ≤ deeper ∧ IsTitle title ∧ line = headingLine deeper title := by
  induction h generalizing level with
  | @mk title body subsections hbody htitles hinside ih =>
    rw [linesBelow, subsectionLines_eq_flatMap, List.mem_append, List.mem_flatMap] at hline
    rcases hline with hline | ⟨s, hs, hline⟩
    · exact .inl ⟨body, hbody, hline⟩
    · rcases List.mem_cons.1 hline with rfl | hline
      · exact .inr ⟨level, s.title, Nat.le_refl level, htitles s hs, rfl⟩
      · rcases ih s hs hline with hbelow | ⟨deeper, title, hlevel, htitle, heq⟩
        · exact .inl hbelow
        · exact .inr ⟨deeper, title, by omega, htitle, heq⟩

theorem IsBody.of_mem_bodyLines {body line : String} (h : IsBody body)
    (hline : line ∈ bodyLines body) :
    '\n' ∉ line.toList ∧ '\r' ∉ line.toList ∧ ¬['#', '#'] <+: Chars.trimStart line.toList := by
  rw [bodyLines] at hline
  split at hline
  · cases hline
  · obtain ⟨piece, hpiece, rfl⟩ := List.mem_map.1 hline
    refine ⟨?_, ?_, h.no_heading _ hline⟩
    · rw [String.toList_ofList]
      exact Chars.forall_beq_eq_false_iff.1 (Chars.sep_of_mem_pieces piece hpiece)
    · rw [String.toList_ofList]
      exact fun hreturn => h.return_notMem (Chars.mem_of_mem_pieces piece hpiece hreturn)

/-- The last character of a trimmed text is no white space. -/
theorem getLast?_ne_of_trimmed {text : String} (h : Text.trim text = text) {c : Char}
    (hc : isBlank c = true) : text.toList.getLast? ≠ some c := by
  intro hlast
  have hany := (Chars.strip_eq_self_iff.1 (Text.trim_eq_self_iff.1 h)).2
  rw [hlast, Option.any_some, hc] at hany
  cases hany

theorem ended_headingLine {level : Nat} {title : String} (h : IsTitle title) :
    '\n' ∉ (headingLine level title).toList ∧
      (headingLine level title).toList.getLast? ≠ some '\r' := by
  have hlist : (headingLine level title).toList =
      List.replicate level '#' ++ [' '] ++ title.toList := by
    simp [headingLine]
  have hne : title.toList ≠ [] := fun hnil => h.ne_empty (String.toList_eq_nil_iff.1 hnil)
  rw [hlist]
  constructor
  · simp only [List.mem_append, List.mem_replicate, List.mem_singleton, not_or]
    exact ⟨⟨fun hhash => absurd hhash.2 (by decide), by decide⟩, h.newline_notMem⟩
  · rw [List.getLast?_append_of_ne_nil _ hne]
    exact getLast?_ne_of_trimmed h.trimmed (by decide)

theorem Legible.ended_of_mem_linesBelow {s : Section} (h : s.Legible) {level : Nat} :
    ∀ line ∈ s.linesBelow level, '\n' ∉ line.toList ∧ line.toList.getLast? ≠ some '\r' := by
  intro line hline
  rcases h.mem_linesBelow hline with ⟨body, hbody, hmem⟩ | ⟨deeper, title, -, htitle, rfl⟩
  · obtain ⟨hnewline, hreturn, -⟩ := hbody.of_mem_bodyLines hmem
    exact ⟨hnewline, fun hlast => hreturn (List.mem_of_getLast? hlast)⟩
  · exact ended_headingLine htitle

/-- Lines of a deeper level are no headings of this one. -/
theorem Legible.heading?_of_mem_linesBelow {s : Section} (h : s.Legible) {level deeper : Nat}
    (hlevel : 2 ≤ level) (hdeeper : level < deeper) :
    ∀ line ∈ s.linesBelow deeper, heading? level line.toList = none := by
  intro line hline
  rcases h.mem_linesBelow hline with ⟨body, hbody, hmem⟩ | ⟨deepest, title, hle, -, rfl⟩
  · exact heading?_of_not_prefix hlevel (hbody.of_mem_bodyLines hmem).2.2
  · exact heading?_headingLine_of_lt (by omega) title

/-- The last line is not empty, so joining the lines loses none of them. -/
def EndsFull (ls : List String) : Prop :=
  ∀ line ∈ ls.getLast?, line ≠ ""

theorem EndsFull.append {ls more : List String} (h : EndsFull ls) (hmore : EndsFull more) :
    EndsFull (ls ++ more) := by
  intro line hline
  rw [List.getLast?_append, Option.mem_def, Option.or_eq_some_iff] at hline
  rcases hline with hline | ⟨-, hline⟩
  · exact hmore line hline
  · exact h line hline

theorem IsBody.endsFull_bodyLines {body : String} (h : IsBody body) :
    EndsFull (bodyLines body) := by
  rw [bodyLines]
  split
  · intro line hline
    cases hline
  · rename_i hne
    intro line hline
    rw [Text.splitOn, List.getLast?_map] at hline
    obtain ⟨piece, hpiece, rfl⟩ := Option.map_eq_some_iff.1 hline
    have hlast : ∀ c ∈ body.toList.getLast?, (c == '\n') = false := by
      intro c hc
      rw [beq_eq_false_iff_ne]
      rintro rfl
      exact getLast?_ne_of_trimmed h.trimmed (by decide) hc
    have hfull := Chars.getLast?_pieces_ne_nil
      (fun hnil => hne (String.toList_eq_nil_iff.1 hnil)) hlast piece hpiece
    intro hempty
    rw [← String.toList_eq_nil_iff, String.toList_ofList] at hempty
    exact hfull hempty

theorem Legible.endsFull_linesBelow {s : Section} (h : s.Legible) (level : Nat) :
    EndsFull (s.linesBelow level) := by
  induction h generalizing level with
  | @mk title body subsections hbody htitles hinside ih =>
    have hsubsections : EndsFull (subsectionLines level subsections) := by
      clear hinside
      induction subsections with
      | nil =>
        intro line hline
        cases hline
      | cons s rest ihrest =>
        have hheading : EndsFull [headingLine level s.title] := by
          rintro line ⟨⟩ hempty
          have hlist := String.toList_eq_nil_iff.2 hempty
          simp [headingLine] at hlist
        rw [subsectionLines, ← List.singleton_append]
        refine hheading.append ((ih s List.mem_cons_self (level + 1)).append (ihrest ?_ ?_))
        · exact fun t ht => htitles t (List.mem_cons_of_mem s ht)
        · exact fun t ht => ih t (List.mem_cons_of_mem s ht)
    rw [linesBelow]
    exact hbody.endsFull_bodyLines.append hsubsections

theorem Legible.lines_linesBelow {s : Section} (h : s.Legible) (level : Nat) :
    Chars.lines (Text.joinLines (s.linesBelow level)).toList =
      (s.linesBelow level).map String.toList :=
  Text.lines_joinLines h.ended_of_mem_linesBelow (h.endsFull_linesBelow level)

/-! ### Reading -/

/-- The subsections of a level are found at their headings. -/
theorem splitHeadings_subsectionLines {level : Nat} (hlevel : 2 ≤ level) {sections : List Section}
    (htitles : ∀ s ∈ sections, IsTitle s.title) (hlegible : ∀ s ∈ sections, s.Legible) :
    splitHeadings level ((subsectionLines level sections).map String.toList) =
      ([], sections.map fun s =>
        (s.title.toList, (s.linesBelow (level + 1)).map String.toList)) := by
  induction sections with
  | nil => rfl
  | cons s rest ih =>
    obtain ⟨htitle, htitles⟩ := List.forall_mem_cons.1 htitles
    obtain ⟨hs, hrest⟩ := List.forall_mem_cons.1 hlegible
    have hbelow : ∀ line ∈ (s.linesBelow (level + 1)).map String.toList,
        heading? level line = none := by
      rw [List.forall_mem_map]
      exact hs.heading?_of_mem_linesBelow hlevel (Nat.lt_succ_self level)
    rw [subsectionLines, List.map_cons, List.map_append, splitHeadings,
      splitHeadings_append hbelow, ih htitles hrest,
      heading?_headingLine (by omega) htitle, List.append_nil, List.map_cons]

/-- A level is split at its own headings and nowhere else. -/
theorem splitHeadings_linesBelow {level : Nat} (hlevel : 2 ≤ level) {title body : String}
    {subsections : List Section} (hbody : IsBody body)
    (htitles : ∀ s ∈ subsections, IsTitle s.title) (hlegible : ∀ s ∈ subsections, s.Legible) :
    splitHeadings level ((linesBelow level ⟨title, body, subsections⟩).map String.toList) =
      ((bodyLines body).map String.toList,
        subsections.map fun s =>
          (s.title.toList, (s.linesBelow (level + 1)).map String.toList)) := by
  have hlead : ∀ line ∈ (bodyLines body).map String.toList, heading? level line = none := by
    rw [List.forall_mem_map]
    exact fun line hline => heading?_of_not_prefix hlevel (hbody.of_mem_bodyLines hline).2.2
  rw [linesBelow, List.map_append, splitHeadings_append hlead,
    splitHeadings_subsectionLines hlevel htitles hlegible, List.append_nil]

theorem IsBody.trim_textOf_bodyLines {body : String} (h : IsBody body) :
    Text.trim (textOf ((bodyLines body).map String.toList)) = body := by
  rw [textOf_toList, bodyLines]
  split
  · rename_i hempty
    rw [hempty]
    rfl
  · rw [Text.joinLines_splitOn, h.trimmed]

theorem length_linesBelow_lt {level : Nat} {title body : String} {subsections : List Section}
    {s : Section} (h : s ∈ subsections) :
    (s.linesBelow (level + 1)).length < (linesBelow level ⟨title, body, subsections⟩).length := by
  obtain ⟨before, after, rfl⟩ := List.append_of_mem h
  rw [linesBelow, subsectionLines_eq_flatMap]
  simp only [List.length_append, List.flatMap_append, List.flatMap_cons, List.length_cons]
  omega

/-- The lines of a section are read as the section, given fuel for each of them. -/
theorem Legible.nest_linesBelow {s : Section} (h : s.Legible) {level fuel : Nat}
    (hlevel : 2 ≤ level) (hfuel : (s.linesBelow level).length ≤ fuel) :
    nest fuel s.title (Text.joinLines (s.linesBelow level)) level = s := by
  induction h generalizing level fuel with
  | @mk title body subsections hbody htitles hinside ih =>
    have hlegible : Legible ⟨title, body, subsections⟩ := .mk hbody htitles hinside
    have hsplit : splitHeadings level
        (Chars.lines (Text.joinLines (linesBelow level ⟨title, body, subsections⟩)).toList) = _ :=
      (congrArg _ (hlegible.lines_linesBelow level)).trans
        (splitHeadings_linesBelow hlevel hbody htitles hinside)
    have hlt : ∀ s ∈ subsections, (s.linesBelow (level + 1)).length <
        (linesBelow level ⟨title, body, subsections⟩).length := fun s hs => length_linesBelow_lt hs
    cases fuel with
    | zero =>
      have hnone : subsections = [] := by
        rw [List.eq_nil_iff_forall_not_mem]
        intro s hs
        have := hlt s hs
        omega
      rw [nest_zero, hsplit, hbody.trim_textOf_bodyLines, hnone]
    | succ fuel =>
      have hread : ∀ s ∈ subsections, nest fuel (String.ofList s.title.toList)
          (textOf ((s.linesBelow (level + 1)).map String.toList)) (level + 1) = s := by
        intro s hs
        have := hlt s hs
        rw [String.ofList_toList, textOf_toList]
        exact ih s hs (by omega) (by omega)
      rw [nest_succ, hsplit, hbody.trim_textOf_bodyLines, List.map_map]
      exact congrArg (Section.mk title body)
        ((List.map_congr_left hread).trans (List.map_id subsections))

/-- A line feed in front of a text is white space in front of its body. -/
theorem nest_newline (fuel : Nat) (title text : String) {level : Nat} (hlevel : 2 ≤ level) :
    nest fuel title ("\n" ++ text) level = nest fuel title text level := by
  have hlines : Chars.lines ("\n" ++ text).toList = [[]] ++ Chars.lines text.toList := by
    rw [String.toList_append]
    rfl
  have hhead : ∀ line ∈ [([] : List Char)], heading? level line = none := by
    rintro line hline
    rw [List.mem_singleton.1 hline]
    exact heading?_of_not_prefix hlevel (by decide)
  have htrim : ∀ lead : List (List Char),
      Text.trim (textOf ([[]] ++ lead)) = Text.trim (textOf lead) := by
    intro lead
    cases lead with
    | nil => rfl
    | cons line lead =>
      have hlist : (textOf ([[]] ++ line :: lead)).toList =
          '\n' :: (textOf (line :: lead)).toList :=
        Text.toList_joinLines_cons _ _ _
      rw [Text.trim, hlist, Text.trim, Chars.trim, Chars.strip,
        List.dropWhile_cons_of_pos (by decide)]
      rfl
  cases fuel with
  | zero => rw [nest_zero, nest_zero, hlines, splitHeadings_append hhead, htrim]
  | succ fuel => rw [nest_succ, nest_succ, hlines, splitHeadings_append hhead, htrim]

/-- A section is read exactly from a text whose first line holds a title and a colon. -/
theorem ofText_eq_some_iff {content : String} {s : Section} :
    ofText content = some s ↔
      ∃ first rest title head,
        (Text.cutAt (· == '\n') content).getD (content, "") = (first, rest) ∧
        Text.cutAt (· == ':') first = some (title, head) ∧ Text.blank title = false ∧
        s = nest (bodyText head rest).length (Text.trim title) (bodyText head rest) 2 := by
  rw [ofText]
  constructor
  · intro h
    split at h
    rename_i first rest hline
    split at h
    · cases h
    · rename_i title head hcolon
      split at h
      · cases h
      · rename_i hblank
        exact ⟨first, rest, title, head, hline, hcolon, Bool.eq_false_iff.2 hblank,
          (Option.some_inj.1 h).symm⟩
  · rintro ⟨first, rest, title, head, hline, hcolon, hblank, rfl⟩
    simp only [hline, hcolon, hblank, Bool.false_eq_true, if_false]

/-- The first of several lines and the text of the others. -/
theorem firstLine_joinLines {first : String} (h : '\n' ∉ first.toList) (ls : List String) :
    (Text.cutAt (· == '\n') (Text.joinLines (first :: ls))).getD
        (Text.joinLines (first :: ls), "") = (first, Text.joinLines ls) := by
  have hfirst := Chars.forall_beq_eq_false_iff.2 h
  cases ls with
  | nil =>
    change (Text.cutAt (· == '\n') first).getD (first, "") = (first, "")
    rw [Text.cutAt, Chars.cutAt_eq_none_iff.2 hfirst]
    rfl
  | cons next ls =>
    rw [Text.cutAt_eq_some_iff.2 ⟨'\n', by decide, hfirst, Text.toList_joinLines_cons _ _ _⟩]
    rfl

theorem bodyText_eq_newline_append {rest : String} (h : rest ≠ "") :
    bodyText "" rest = "\n" ++ rest := by
  rw [bodyText, if_neg h]
  rfl

theorem nest_bodyText (fuel : Nat) (title rest : String) :
    nest fuel title (bodyText "" rest) 2 = nest fuel title rest 2 := by
  by_cases hrest : rest = ""
  · rw [hrest]
    rfl
  · rw [bodyText_eq_newline_append hrest, nest_newline _ _ _ (Nat.le_refl 2)]

theorem length_le_length_bodyText (rest : String) : rest.length ≤ (bodyText "" rest).length := by
  by_cases hrest : rest = ""
  · rw [hrest]
    exact Nat.zero_le _
  · rw [bodyText_eq_newline_append hrest, String.length_append]
    exact Nat.le_add_left _ _

/-- Reading a title line and lines below it, with fuel for each of these lines. -/
theorem ofText_title_cons {title : String} (htitle : IsTitle title) (hcolon : ':' ∉ title.toList)
    {ls : List String} (hlines : Chars.lines (Text.joinLines ls).toList = ls.map String.toList) :
    ∃ fuel, ls.length ≤ fuel ∧
      ofText (Text.joinLines ((title ++ ":") :: ls)) =
        some (nest fuel title (Text.joinLines ls) 2) := by
  have hcut : Text.cutAt (· == ':') (title ++ ":") = some (title, "") := by
    rw [Text.cutAt_eq_some_iff]
    exact ⟨':', by decide, Chars.forall_beq_eq_false_iff.2 hcolon, by simp⟩
  have hfirst : '\n' ∉ (title ++ ":").toList := by
    rw [String.toList_append, List.mem_append, not_or]
    exact ⟨htitle.newline_notMem, by decide⟩
  have hblank : Text.blank title = false := by
    rw [← Bool.not_eq_true, ← Text.trim_eq_empty_iff, htitle.trimmed]
    exact htitle.ne_empty
  refine ⟨(bodyText "" (Text.joinLines ls)).length, ?_, ?_⟩
  · calc ls.length = (Chars.lines (Text.joinLines ls).toList).length := by
          rw [hlines, List.length_map]
      _ ≤ (Text.joinLines ls).toList.length := Chars.length_lines_le _
      _ = (Text.joinLines ls).length := String.length_toList
      _ ≤ (bodyText "" (Text.joinLines ls)).length := length_le_length_bodyText _
  · refine ofText_eq_some_iff.2
      ⟨title ++ ":", Text.joinLines ls, title, "", firstLine_joinLines hfirst ls, hcut, hblank, ?_⟩
    rw [htitle.trimmed, nest_bodyText]

/-- Reading a written section gives back the whole section, to any depth. -/
theorem ofText_print {s : Section} (htitle : IsTitle s.title) (hcolon : ':' ∉ s.title.toList)
    (h : s.Legible) : ofText s.print = some s := by
  obtain ⟨fuel, hfuel, hread⟩ := ofText_title_cons htitle hcolon (h.lines_linesBelow 2)
  rw [print, hread, h.nest_linesBelow (Nat.le_refl 2) hfuel]

/-- A body with a blank line and a lone hash sign, titles with a colon and with a hash sign, and an
empty body. -/
theorem ofText_print_options :
    let s : Section :=
      ⟨"Options", "Global options.\n\n # No heading",
        [⟨"Verbosity: how much", "Set it.", [⟨"# Levels", "0 to 3.", []⟩]⟩, ⟨"Colour", "", []⟩]⟩
    s.print = "Options:\nGlobal options.\n\n # No heading\n## Verbosity: how much\nSet it.\n" ++
        "### # Levels\n0 to 3.\n## Colour" ∧
      ofText s.print = some s := by
  refine ⟨by decide +kernel, ofText_print (by decide +kernel) (by decide) ?_⟩
  have hlevels : Legible ⟨"# Levels", "0 to 3.", []⟩ :=
    .mk (by decide +kernel) (by simp) (by simp)
  have hcolour : Legible ⟨"Colour", "", []⟩ := .mk (by decide +kernel) (by simp) (by simp)
  refine .mk (by decide +kernel) (by simp; decide +kernel) ?_
  rw [List.forall_mem_cons, List.forall_mem_singleton]
  refine ⟨.mk (by decide +kernel) (by simp; decide +kernel) ?_, hcolour⟩
  rwa [List.forall_mem_singleton]

end DocTopics.Section
